import SglJax.Layers.GatedDeltaRagged

/-! Requests and their slots over many batches. A slot of a pool stands for all tokens that its
request gave since it began, whichever batches these came in. -/
namespace SglJax.Layers

open Foundation

section Scatter

variable {σ : Type} [Zero σ] {buf val : List σ} {slot : Nat}

/-- The writes to a slot agree, and there is one, or the slot held the value before. -/
theorem getElem?_scatterTrack {track : Track} {v : σ} (hslot : slot < buf.length)
    (hagree : ∀ (j : Nat) m w, track.indices[j]? = some slot → track.mask[j]? = some m →
      val[j]? = some w → (if slot = 0 ∨ ¬ m then buf.getD slot 0 else w) = v)
    (h : buf[slot]? = some v ∨ ∃ j : Nat, ∃ m w, track.indices[j]? = some slot ∧
      track.mask[j]? = some m ∧ val[j]? = some w) :
    (scatterTrack buf track val)[slot]? = some v := by
  apply getElem?_scatterDrop _ hslot
  · refine h.imp_right fun ⟨j, m, w, hidx, hmask, hval⟩ => ?_
    refine ⟨(Int.ofNat slot, if slot = 0 ∨ ¬ m then buf.getD slot 0 else w), ?_, rfl⟩
    apply List.mem_of_getElem? (i := j)
    rw [List.getElem?_zip_eq_some, List.getElem?_map, hidx, List.getElem?_zipWith_eq_some]
    exact ⟨rfl, (slot, m), w, List.getElem?_zip_eq_some.mpr ⟨hidx, hmask⟩, hval, rfl⟩
  · intro w hw hplace
    obtain ⟨j, hj⟩ := List.mem_iff_getElem?.mp hw
    rw [List.getElem?_zip_eq_some, List.getElem?_map, List.getElem?_zipWith_eq_some] at hj
    obtain ⟨hfst, p, u, hp, hval, hsnd⟩ := hj
    obtain ⟨hidx, hmask⟩ := List.getElem?_zip_eq_some.mp hp
    rw [hidx, Option.map_some] at hfst
    have hslot' : p.1 = slot := by
      have heq := Option.some.inj hfst
      rw [hplace] at heq
      exact Int.ofNat.inj heq
    rw [hslot'] at hidx
    have heq := hagree j p.2 u hidx hmask hval
    rw [← hsnd, hslot']
    exact heq

/-- Only the slot that is never written may stand more than once. -/
def DistinctSlots (slots : List Nat) : Prop :=
  ∀ (i j : Nat) slot, slots[i]? = some slot → slots[j]? = some slot → slot ≠ 0 → i = j

theorem DistinctSlots.of_nodup {slots : List Nat} (h : slots.Nodup) : DistinctSlots slots := by
  intro i j slot hi hj _
  exact (List.getElem?_inj (List.getElem?_eq_some_iff.mp hi).1 h).mp (hi.trans hj.symm)

theorem scatterTrack_at {track : Track} {j : Nat} {v : σ} (hslot : slot < buf.length)
    (hne : slot ≠ 0) (hdistinct : DistinctSlots track.indices)
    (hidx : track.indices[j]? = some slot) (hmask : track.mask[j]? = some true)
    (hval : val[j]? = some v) : (scatterTrack buf track val)[slot]? = some v := by
  apply getElem?_scatterTrack hslot _ (.inr ⟨j, true, v, hidx, hmask, hval⟩)
  intro k m w hidx' hmask' hval'
  have hkj : k = j := hdistinct k j slot hidx' hidx hne
  rw [hkj, hmask] at hmask'
  rw [hkj, hval] at hval'
  cases hmask'
  rw [if_neg (by simpa using hne)]
  exact (Option.some.inj hval').symm

theorem scatterTrack_other {track : Track} (hslot : slot < buf.length)
    (hother : slot = 0 ∨ ∀ j : Nat, track.indices[j]? = some slot → track.mask[j]? ≠ some true) :
    (scatterTrack buf track val)[slot]? = buf[slot]? := by
  have hkeep : buf[slot]? = some (buf.getD slot 0) := by
    rw [List.getD_eq_getElem _ _ hslot, List.getElem?_eq_getElem hslot]
  rw [hkeep]
  apply getElem?_scatterTrack hslot _ (.inl hkeep)
  intro j m w hidx hmask _
  rw [if_pos]
  refine hother.imp_right fun hnot => ?_
  have := hnot j hidx
  rw [hmask] at this
  simpa using this

/-- The row that is written to a slot. -/
def Track.writer (track : Track) (slot : Nat) : Option Nat :=
  (track.indices.zip track.mask).findIdx? (· = (slot, true))

theorem getElem?_scatterTrack_writer {track : Track} {n : Nat} {v : Nat → σ}
    (hslot : slot < buf.length) (hne : slot ≠ 0) (hdistinct : DistinctSlots track.indices)
    (hlength : track.indices.length = n) :
    (scatterTrack buf track ((List.range n).map v))[slot]? =
      match track.writer slot with
      | some i => some (v i)
      | none => buf[slot]? := by
  cases hwriter : track.writer slot with
  | some i =>
    obtain ⟨hi, hfound, -⟩ := List.findIdx?_eq_some_iff_getElem.mp hwriter
    have hpair := List.getElem?_eq_getElem hi
    rw [of_decide_eq_true hfound] at hpair
    obtain ⟨hidx, hmask⟩ := List.getElem?_zip_eq_some.mp hpair
    have hin : i < n := hlength ▸ (List.getElem?_eq_some_iff.mp hidx).1
    apply scatterTrack_at hslot hne hdistinct hidx hmask
    rw [List.getElem?_map, List.getElem?_range hin, Option.map_some]
  | none =>
    apply scatterTrack_other hslot
    right
    intro j hidx hmask
    have hmem := List.mem_of_getElem? (List.getElem?_zip_eq_some (z := (slot, true)).mpr
      ⟨hidx, hmask⟩)
    have hnot := List.findIdx?_eq_none_iff.mp hwriter _ hmem
    simp at hnot

theorem zip_replicate_true (slots : List Nat) :
    slots.zip (List.replicate slots.length true) = slots.map fun slot => (slot, true) := by
  apply List.ext_getElem?
  intro j
  rw [List.getElem?_map]
  by_cases hj : j < slots.length
  · simp [hj]
  · simp [hj]

theorem scatterIdx0Safe_eq (buf : List σ) (stateIndices : List Nat) (val : List σ) :
    scatterIdx0Safe buf stateIndices val =
      scatterTrack buf ⟨stateIndices, List.replicate stateIndices.length true⟩ val := by
  unfold scatterIdx0Safe scatterTrack
  dsimp only
  rw [zip_replicate_true, List.zipWith_map_left]
  simp

theorem getElem?_scatterIdx0Safe {slots : List Nat} {v : Nat → σ} (hslot : slot < buf.length)
    (hne : slot ≠ 0) (hdistinct : DistinctSlots slots) :
    (scatterIdx0Safe buf slots ((List.range slots.length).map v))[slot]? =
      match slots.findIdx? (· = slot) with
      | some i => some (v i)
      | none => buf[slot]? := by
  have hwriter : (Track.mk slots (List.replicate slots.length true)).writer slot =
      slots.findIdx? (· = slot) := by
    unfold Track.writer
    rw [zip_replicate_true, List.findIdx?_map]
    congr 1
    funext s
    simp
  rw [scatterIdx0Safe_eq, getElem?_scatterTrack_writer hslot hne hdistinct rfl, hwriter]

end Scatter

section Sequences

variable {τ : Type}

/-- The tokens of a sequence of a batch. -/
def seqOf (tokens : List τ) (offset : Nat → Nat) (i : Nat) : List τ :=
  (tokens.drop (offset i)).take (offset (i + 1) - offset i)

/-- A place of a sequence, among the tokens of the batch. -/
theorem seqOf_place {tokens : List τ} {offset : Nat → Nat} {i r : Nat} {x : τ}
    (hx : (seqOf tokens offset i)[r]? = some x) :
    r < offset (i + 1) - offset i ∧ tokens[offset i + r]? = some x := by
  have hr : r < offset (i + 1) - offset i := by
    have := (List.getElem?_eq_some_iff.mp hx).1
    simp only [seqOf, List.length_take] at this
    omega
  rw [seqOf, List.getElem?_take_of_lt hr, List.getElem?_drop] at hx
  exact ⟨hr, hx⟩

theorem seqOf_id {tokens : List τ} {i : Nat} {x : τ} (hx : tokens[i]? = some x) :
    seqOf tokens id i = [x] := by
  obtain ⟨hi, rfl⟩ := List.getElem?_eq_some_iff.mp hx
  rw [seqOf, id, id, Nat.add_sub_cancel_left, List.drop_eq_getElem_cons hi]
  rfl

variable {σ ω : Type} [Zero σ]

/-- A step for every request is a batch of sequences of one token. -/
theorem zipWith_step_spec {states : List σ} {tokens : List τ} {b : Nat} (step : σ → τ → σ × ω)
    (hstates : states.length = b) (htokens : tokens.length = b) :
    (states.zipWith step tokens).map Prod.fst = (List.range b).map (fun i =>
        (seqOf tokens id i).foldl (fun s x => (step s x).1) (states.getD i 0)) ∧
      ∀ i < b, ∀ (r : Nat) x, (seqOf tokens id i)[r]? = some x →
        ((states.zipWith step tokens).map Prod.snd)[id i + r]? =
          some (step (((seqOf tokens id i).take r).foldl (fun s x => (step s x).1)
            (states.getD i 0)) x).2 := by
  have hstep {i : Nat} {x : τ} (hx : tokens[i]? = some x) :
      (states.zipWith step tokens)[i]? = some (step (states.getD i 0) x) := by
    have hi := (List.getElem?_eq_some_iff.mp hx).1
    rw [List.getElem?_zipWith, hx, List.getD_eq_getElem _ _ (by omega),
      List.getElem?_eq_getElem (by omega)]
  constructor
  · apply List.ext_getElem?
    intro i
    rw [List.getElem?_map, List.getElem?_map]
    by_cases hi : i < b
    · have hx := List.getElem?_eq_getElem (show i < tokens.length by omega)
      rw [hstep hx, List.getElem?_range hi, Option.map_some, Option.map_some, seqOf_id hx]
      rfl
    · rw [List.getElem?_eq_none (by simp; omega), List.getElem?_eq_none (by simpa using hi)]
      rfl
  · intro i hi r x hx
    have htoken := List.getElem?_eq_getElem (show i < tokens.length by omega)
    rw [seqOf_id htoken] at hx ⊢
    have hr : r = 0 := by
      have := (List.getElem?_eq_some_iff.mp hx).1
      simpa using this
    subst hr
    obtain rfl := Option.some.inj hx
    rw [id, Nat.add_zero, List.getElem?_map, hstep htoken]
    rfl

end Sequences

/-- What a pool sees of a batch: the slots of the requests, and which of them go on. -/
structure SlotCall (τ : Type) where
  stateIndices : List Nat
  hasInitialState : List Bool
  track : Option Track
  seq : Nat → List τ

namespace SlotCall

variable {σ τ : Type}

/-- The slots are in the pool, and the requests have slots of their own. -/
structure Valid (size : Nat) (call : SlotCall τ) : Prop where
  flags : call.hasInitialState.length = call.stateIndices.length
  distinct : DistinctSlots call.stateIndices
  inPool : ∀ slot ∈ call.stateIndices, slot < size
  tracks : ∀ track ∈ call.track, DistinctSlots track.indices ∧
    track.indices.length = call.stateIndices.length

/-- The row of a batch that a slot gets in the end: a tracked copy goes over the slot's own. -/
def writer (call : SlotCall τ) (slot : Nat) : Option Nat :=
  (call.track.bind (·.writer slot)).or (call.stateIndices.findIdx? (· = slot))

/-- What the request of a row gave before the batch. -/
def past (call : SlotCall τ) (hist : Nat → List τ) (i : Nat) : List τ :=
  if call.hasInitialState.getD i false then hist (call.stateIndices.getD i 0) else []

/-- The tokens that each slot stands for after a batch. Slot 0 is the padding's. -/
def record (hist : Nat → List τ) (call : SlotCall τ) (slot : Nat) : List τ :=
  if slot = 0 then hist 0 else
    match call.writer slot with
    | some i => call.past hist i ++ call.seq i
    | none => hist slot

/-- The tokens that each slot stands for after batches. -/
def histories (calls : List (SlotCall τ)) : Nat → List τ := calls.foldl record fun _ => []

/-- Every slot holds what its tokens give. -/
def Holds (f : List τ → σ) (table : List σ) (hist : Nat → List τ) : Prop :=
  ∀ slot < table.length, table[slot]? = some (f (hist slot))

variable [Zero σ] {table : List σ} {call : SlotCall τ} {hist : Nat → List τ} {f : List τ → σ}

/-- The padding's slot stays. -/
theorem writeStates_zero (finals : List σ) (hpos : 0 < table.length) :
    (writeStates table call.stateIndices call.track finals)[0]? = table[0]? := by
  have hown : (scatterIdx0Safe table call.stateIndices finals)[0]? = table[0]? := by
    rw [scatterIdx0Safe_eq]
    exact scatterTrack_other hpos (.inl rfl)
  unfold writeStates
  cases call.track with
  | none => exact hown
  | some track =>
    rw [← hown]
    apply scatterTrack_other _ (.inl rfl)
    rwa [scatterIdx0Safe, length_scatterDrop]

theorem length_gatherStates {size : Nat} (hvalid : call.Valid size) :
    (gatherStates table call.stateIndices call.hasInitialState).length =
      call.stateIndices.length := by
  rw [gatherStates, List.length_zipWith, hvalid.flags, Nat.min_self]

theorem length_writeStates (finals : List σ) :
    (writeStates table call.stateIndices call.track finals).length = table.length := by
  unfold writeStates scatterIdx0Safe scatterTrack
  cases call.track <;> simp

section Step

variable (hvalid : call.Valid table.length)
include hvalid

theorem getElem?_writeStates {v : Nat → σ} {slot : Nat} (hslot : slot < table.length)
    (hne : slot ≠ 0) : (writeStates table call.stateIndices call.track
      ((List.range call.stateIndices.length).map v))[slot]? =
      match call.writer slot with
      | some i => some (v i)
      | none => table[slot]? := by
  have hown := getElem?_scatterIdx0Safe (v := v) hslot hne hvalid.distinct
  unfold writeStates writer
  cases htrack : call.track with
  | none => exact hown
  | some track =>
    obtain ⟨hdistinct, hlength⟩ := hvalid.tracks track (by rw [htrack]; rfl)
    have hslot' : slot < (scatterIdx0Safe table call.stateIndices
        ((List.range call.stateIndices.length).map v)).length := by
      rwa [scatterIdx0Safe, length_scatterDrop]
    show (scatterTrack _ _ _)[slot]? = _
    rw [getElem?_scatterTrack_writer hslot' hne hdistinct hlength, hown, Option.bind_some]
    cases track.writer slot <;> rfl

theorem gatherStates_eq (hf : f [] = 0) (hholds : Holds f table hist) {i : Nat}
    (hi : i < call.stateIndices.length) :
    (gatherStates table call.stateIndices call.hasInitialState).getD i 0 =
      f (call.past hist i) := by
  have hslot := hvalid.inPool _ (List.getElem_mem hi)
  have hflag := hvalid.flags ▸ hi
  have hstate : table.getD call.stateIndices[i] 0 = f (hist call.stateIndices[i]) := by
    rw [List.getD_eq_getElem?_getD, hholds _ hslot, Option.getD_some]
  unfold gatherStates past
  rw [List.getD_eq_getElem?_getD, List.getElem?_zipWith, List.getElem?_eq_getElem hi,
    List.getElem?_eq_getElem hflag, List.getD_eq_getElem _ _ hi, List.getD_eq_getElem _ _ hflag]
  show (if _ then table.getD call.stateIndices[i] 0 else 0) = _
  rw [hstate]
  split
  · rfl
  · exact hf.symm

/-- A batch goes on with the histories of the slots. -/
theorem holds_record (hholds : Holds f table hist) :
    Holds f (writeStates table call.stateIndices call.track
      ((List.range call.stateIndices.length).map fun i => f (call.past hist i ++ call.seq i)))
      (call.record hist) := by
  intro slot hslot
  rw [length_writeStates] at hslot
  unfold record
  by_cases hne : slot = 0
  · subst hne
    rw [writeStates_zero _ hslot, if_pos rfl]
    exact hholds 0 hslot
  · rw [getElem?_writeStates hvalid hslot hne, if_neg hne]
    cases call.writer slot with
    | none => exact hholds slot hslot
    | some i => rfl

end Step

section Runs

variable {κ ω : Type} {calls : List κ} {size : Nat}

theorem histories_take_succ {slots : κ → SlotCall τ} {n : Nat} {call : κ}
    (hcall : calls[n]? = some call) :
    histories ((calls.take (n + 1)).map slots) =
      record (histories ((calls.take n).map slots)) (slots call) := by
  unfold histories
  rw [List.take_add_one, hcall, Option.toList_some, List.map_append, List.foldl_append]
  rfl

/-- Batches that each take their sequences on keep the histories of a pool, from zeros. -/
theorem run_histories (f : List τ → σ) (slots : κ → SlotCall τ)
    (run : List σ → κ → List σ × ω) (hf : f [] = 0)
    (hvalid : ∀ call ∈ calls, (slots call).Valid size)
    (hrun : ∀ call ∈ calls, ∀ table hist, table.length = size → Holds f table hist →
      (run table call).1 = writeStates table (slots call).stateIndices (slots call).track
        ((List.range (slots call).stateIndices.length).map fun i =>
          f ((slots call).past hist i ++ (slots call).seq i))) :
    let result := scan run (List.replicate size 0) calls
    (∀ slot < size, result.1[slot]? = some (f (histories (calls.map slots) slot))) ∧
      ∀ (n : Nat) call, calls[n]? = some call → ∃ table, table.length = size ∧
        Holds f table (histories ((calls.take n).map slots)) ∧
        result.2[n]? = some (run table call).2 := by
  intro result
  obtain ⟨⟨hlength, hend⟩, houts⟩ := scan_spec
    (motive := fun n table => table.length = size ∧
      Holds f table (histories ((calls.take n).map slots)))
    run calls (List.replicate size 0)
    (by
      refine ⟨List.length_replicate, fun slot hslot => ?_⟩
      rw [List.length_replicate] at hslot
      rw [List.getElem?_replicate, if_pos hslot, ← hf]
      rfl)
    (by
      rintro n call table hcall ⟨hlength, hholds⟩
      have hmem := List.mem_of_getElem? hcall
      rw [hrun call hmem table _ hlength hholds, histories_take_succ hcall]
      exact ⟨(length_writeStates _).trans hlength,
        holds_record (hlength ▸ hvalid call hmem) hholds⟩)
  rw [List.take_length] at hend
  refine ⟨fun slot hslot => hend slot (hslot.trans_eq hlength.symm), fun n call hcall => ?_⟩
  obtain ⟨table, ⟨hlength', hholds⟩, hout⟩ := houts n call hcall
  exact ⟨table, hlength', hholds, hout⟩

end Runs

end SlotCall

end SglJax.Layers
