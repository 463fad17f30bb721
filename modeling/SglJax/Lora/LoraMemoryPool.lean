import SglJax.Foundation.Interrupted
import SglJax.Lora.LoraWeights

/-! The slots of the LoRA memory pool. A uid is entered in both tables before its weights are
loaded; a load writes one array of the slot after the other. -/
namespace SglJax.Lora

/-- An adapter id; `none` is Python's `None`. -/
abbrev Uid := Option Text

/-- The id of requests without LoRA. -/
def noLora : Uid := some ['0']

section

variable {K : Type}

structure LoraMemoryPool (K : Type) where
  uidToBufferId : Uid → Option Nat
  /-- `none` is `EMPTY_SLOT`. -/
  bufferIdToUid : List (Option Uid)
  /-- `A_buffer` and `B_buffer`. -/
  buffers : Cell → Mat K

/-- The pool after `init_buffers`. -/
def LoraMemoryPool.init [Zero K] (cfg : PoolConfig) : LoraMemoryPool K where
  uidToBufferId := fun _ => none
  bufferIdToUid := List.replicate cfg.maxLorasPerBatch none
  buffers := fun cell => .zeros (cfg.shape cell.isLoraA cell.moduleName)

/-- The loop of `get_available_buffer_slot` over the given buffer ids. -/
def firstEmptySlot (maxLorasPerBatch : Nat) (bufferIdToUid : List (Option Uid)) :
    List Nat → Except LoraError Nat
  | [] => .error (.noAvailableBufferSlots maxLorasPerBatch)
  | bufferId :: rest =>
    match bufferIdToUid[bufferId]? with
    | none => .error .indexError
    | some none => .ok bufferId
    | some (some _) => firstEmptySlot maxLorasPerBatch bufferIdToUid rest

def getAvailableBufferSlot (cfg : PoolConfig) (pool : LoraMemoryPool K) (uid : Uid) :
    Except LoraError Nat :=
  if uid = noLora then .ok 0
  else firstEmptySlot cfg.maxLorasPerBatch pool.bufferIdToUid (List.range' 1 cfg.maxLorasPerBatch)

/-- The arrays of a slot, in the order in which zeros are stored. -/
def zeroCells (cfg : PoolConfig) (bufferId : Nat) : List Cell :=
  cfg.targetModules.flatMap fun moduleName => (List.range cfg.numLayers).flatMap fun layerId =>
    [⟨true, moduleName, layerId, bufferId⟩, ⟨false, moduleName, layerId, bufferId⟩]

/-- The arrays of a slot, in the order in which an adapter's weights are stored. -/
def adapterCells (cfg : PoolConfig) (bufferId : Nat) : List Cell :=
  (List.range cfg.numLayers).flatMap fun layerId => cfg.targetModules.flatMap fun moduleName =>
    [⟨true, moduleName, layerId, bufferId⟩, ⟨false, moduleName, layerId, bufferId⟩]

/-- `lora_adapters.get(uid)`: no adapter has the id `None`. -/
def getAdapter (loras : Text → Option (LoraAdapter K)) (uid : Uid) : Option (LoraAdapter K) :=
  uid.bind loras

/-- `fuel` is the number of stores the device takes before one fails, if one does. -/
def loadLoraWeightToBuffer [Zero K] (cfg : PoolConfig) (bufferId : Nat)
    (loraAdapter : Option (LoraAdapter K)) (fuel : Option Nat) (buffers : Cell → Mat K) :
    (Cell → Mat K) × Except LoraError Unit :=
  match loraAdapter with
  | none =>
    writeAll .deviceError (fun cell => .ok (.zeros (cfg.shape cell.isLoraA cell.moduleName))) fuel
      (zeroCells cfg bufferId) buffers
  | some adapter =>
    writeAll .deviceError (cellValue cfg adapter) fuel (adapterCells cfg bufferId) buffers

/-- Enter a uid in both tables. -/
def LoraMemoryPool.publish (pool : LoraMemoryPool K) (uid : Uid) (bufferId : Nat) :
    LoraMemoryPool K :=
  { pool with
    uidToBufferId := Function.update pool.uidToBufferId uid (some bufferId)
    bufferIdToUid := pool.bufferIdToUid.set bufferId (some uid) }

/-- The loop over `cur_uids`. A call that raises leaves the pool as it is at that point. -/
def prepareUids [Zero K] (cfg : PoolConfig) (loras : Text → Option (LoraAdapter K))
    (fuel : Uid → Option Nat) : List Uid → LoraMemoryPool K → Bool →
    LoraMemoryPool K × Except LoraError Bool
  | [], pool, hasNewWeights => (pool, .ok hasNewWeights)
  | uid :: rest, pool, hasNewWeights =>
    if (pool.uidToBufferId uid).isSome then prepareUids cfg loras fuel rest pool hasNewWeights
    else
      match getAvailableBufferSlot cfg pool uid with
      | .error e => (pool, .error e)
      | .ok bufferId =>
        let pool := pool.publish uid bufferId
        match loadLoraWeightToBuffer cfg bufferId (getAdapter loras uid) (fuel uid)
          pool.buffers with
        | (buffers, .error e) => ({ pool with buffers }, .error e)
        | (buffers, .ok ()) => prepareUids cfg loras fuel rest { pool with buffers } true

def LoraMemoryPool.prepareLoraBatch [Zero K] (cfg : PoolConfig) (pool : LoraMemoryPool K)
    (curUids : List Uid) (loras : Text → Option (LoraAdapter K)) (fuel : Uid → Option Nat) :
    LoraMemoryPool K × Except LoraError Bool :=
  prepareUids cfg loras fuel curUids pool false

/-- `get_buffer_id` -/
def LoraMemoryPool.getBufferId (pool : LoraMemoryPool K) (uid : Uid) : Except LoraError Nat :=
  (pool.uidToBufferId uid).elim (.error .keyError) .ok

section tables

/-- The two tables are inverse to each other, and only the id of requests without LoRA is in
slot 0. -/
structure Tables (cfg : PoolConfig) (pool : LoraMemoryPool K) : Prop where
  length : pool.bufferIdToUid.length = cfg.maxLorasPerBatch
  inverse : ∀ uid bufferId, pool.uidToBufferId uid = some bufferId ↔
    pool.bufferIdToUid[bufferId]? = some (some uid)
  slot_zero : ∀ uid bufferId, pool.uidToBufferId uid = some bufferId →
    (bufferId = 0 ↔ uid = noLora)

/-- The empty slots that adapters can get. -/
def emptySlots (pool : LoraMemoryPool K) : Nat := pool.bufferIdToUid.tail.count none

variable {cfg : PoolConfig} {pool : LoraMemoryPool K} {uid : Uid} {bufferId : Nat}
  {loras : Text → Option (LoraAdapter K)} {fuel : Uid → Option Nat}

theorem tables_init [Zero K] : Tables cfg (.init cfg : LoraMemoryPool K) where
  length := List.length_replicate
  inverse := by
    intro uid bufferId
    simp [LoraMemoryPool.init, List.getElem?_replicate]
  slot_zero := by simp [LoraMemoryPool.init]

theorem firstEmptySlot_ok {n : Nat} {bufferIdToUid : List (Option Uid)} {ids : List Nat}
    (h : firstEmptySlot n bufferIdToUid ids = .ok bufferId) :
    bufferId ∈ ids ∧ bufferIdToUid[bufferId]? = some none := by
  induction ids with
  | nil => simp [firstEmptySlot] at h
  | cons first rest ih =>
    unfold firstEmptySlot at h
    split at h
    · cases h
    · rename_i hempty
      cases h
      exact ⟨List.mem_cons_self, hempty⟩
    · obtain ⟨hmem, hempty⟩ := ih h
      exact ⟨List.mem_cons_of_mem first hmem, hempty⟩

/-- The ids searched end one past the table, so the search of a full table runs off its end
before the loop is over. -/
theorem firstEmptySlot_full {n k m : Nat} {bufferIdToUid : List (Option Uid)}
    (hlen : k + m = bufferIdToUid.length) (hfull : none ∉ bufferIdToUid.drop k) :
    firstEmptySlot n bufferIdToUid (List.range' k (m + 1)) = .error .indexError := by
  induction m generalizing k with
  | zero =>
    have hnone : bufferIdToUid[k]? = none := List.getElem?_eq_none (by omega)
    simp [firstEmptySlot, hnone]
  | succ m ih =>
    have hk : k < bufferIdToUid.length := by omega
    rw [List.drop_eq_getElem_cons hk, List.mem_cons, not_or] at hfull
    obtain ⟨uid, huid⟩ := Option.ne_none_iff_exists'.mp (Ne.symm hfull.1)
    have hentry : bufferIdToUid[k]? = some (some uid) := by
      rw [List.getElem?_eq_getElem hk, huid]
    rw [List.range'_succ, firstEmptySlot, hentry]
    exact ih (by omega) hfull.2

theorem firstEmptySlot_room {n k m : Nat} {bufferIdToUid : List (Option Uid)}
    (hlen : k + m = bufferIdToUid.length) (hroom : none ∈ bufferIdToUid.drop k) :
    ∃ bufferId, firstEmptySlot n bufferIdToUid (List.range' k (m + 1)) = .ok bufferId := by
  induction m generalizing k with
  | zero =>
    rw [List.drop_eq_nil_of_le (by omega)] at hroom
    simp at hroom
  | succ m ih =>
    have hk : k < bufferIdToUid.length := by omega
    rw [List.drop_eq_getElem_cons hk, List.mem_cons] at hroom
    rw [List.range'_succ, firstEmptySlot, List.getElem?_eq_getElem hk]
    cases hentry : bufferIdToUid[k] with
    | none => exact ⟨k, rfl⟩
    | some uid =>
      rw [hentry] at hroom
      exact ih (by omega) (hroom.resolve_left (by simp))

/-- What a search that succeeds finds. -/
theorem getAvailableBufferSlot_ok (h : getAvailableBufferSlot cfg pool uid = .ok bufferId) :
    (uid = noLora ∧ bufferId = 0) ∨
      (uid ≠ noLora ∧ 1 ≤ bufferId ∧ pool.bufferIdToUid[bufferId]? = some none) := by
  unfold getAvailableBufferSlot at h
  split at h
  · rename_i huid
    cases h
    exact .inl ⟨huid, rfl⟩
  · rename_i huid
    obtain ⟨hmem, hempty⟩ := firstEmptySlot_ok h
    exact .inr ⟨huid, (List.mem_range'_1.mp hmem).1, hempty⟩

/-- With no slot left the search raises `IndexError`, not the documented `ValueError`. -/
theorem getAvailableBufferSlot_full (ht : Tables cfg pool) (huid : uid ≠ noLora)
    (hfull : emptySlots pool = 0) :
    getAvailableBufferSlot cfg pool uid = .error .indexError := by
  have hpos := cfg.maxLorasPerBatch_pos
  unfold getAvailableBufferSlot
  rw [if_neg huid]
  obtain ⟨m, hm⟩ : ∃ m, cfg.maxLorasPerBatch = m + 1 := ⟨_, (Nat.succ_pred_eq_of_pos hpos).symm⟩
  rw [hm]
  apply firstEmptySlot_full
  · rw [ht.length, hm, Nat.add_comm]
  · rw [List.drop_one]
    exact List.count_eq_zero.mp hfull

theorem getAvailableBufferSlot_room (ht : Tables cfg pool)
    (hroom : uid ≠ noLora → 0 < emptySlots pool) :
    ∃ bufferId, getAvailableBufferSlot cfg pool uid = .ok bufferId := by
  have hpos := cfg.maxLorasPerBatch_pos
  unfold getAvailableBufferSlot
  split
  · exact ⟨0, rfl⟩
  · rename_i huid
    obtain ⟨m, hm⟩ : ∃ m, cfg.maxLorasPerBatch = m + 1 :=
      ⟨_, (Nat.succ_pred_eq_of_pos hpos).symm⟩
    rw [hm]
    apply firstEmptySlot_room
    · rw [ht.length, hm, Nat.add_comm]
    · rw [List.drop_one]
      exact List.count_pos_iff.mp (hroom huid)

/-- The slot a new uid gets is empty. -/
theorem Tables.slot_empty (ht : Tables cfg pool) (hnew : pool.uidToBufferId uid = none)
    (h : getAvailableBufferSlot cfg pool uid = .ok bufferId) :
    pool.bufferIdToUid[bufferId]? = some none := by
  obtain ⟨rfl, rfl⟩ | ⟨-, -, hempty⟩ := getAvailableBufferSlot_ok h
  · have hlt : 0 < pool.bufferIdToUid.length := ht.length ▸ cfg.maxLorasPerBatch_pos
    rw [List.getElem?_eq_getElem hlt]
    cases hentry : pool.bufferIdToUid[0] with
    | none => rfl
    | some other =>
      have hmapped := (ht.inverse other 0).mpr (by rw [List.getElem?_eq_getElem hlt, hentry])
      rw [(ht.slot_zero other 0 hmapped).mp rfl, hnew] at hmapped
      cases hmapped
  · exact hempty

@[simp] theorem publish_uidToBufferId :
    (pool.publish uid bufferId).uidToBufferId =
      Function.update pool.uidToBufferId uid (some bufferId) := rfl

@[simp] theorem publish_buffers : (pool.publish uid bufferId).buffers = pool.buffers := rfl

theorem Tables.publish (ht : Tables cfg pool) (hnew : pool.uidToBufferId uid = none)
    (h : getAvailableBufferSlot cfg pool uid = .ok bufferId) :
    Tables cfg (pool.publish uid bufferId) where
  length := by simp [LoraMemoryPool.publish, ht.length]
  inverse := by
    intro other id
    have hempty := ht.slot_empty hnew h
    have hlt : bufferId < pool.bufferIdToUid.length := (List.getElem?_eq_some_iff.mp hempty).1
    simp only [LoraMemoryPool.publish, List.getElem?_set, hlt]
    by_cases hother : other = uid
    · subst hother
      rw [Function.update_self]
      by_cases hid : bufferId = id
      · simp [hid]
      · rw [if_neg hid, ← ht.inverse, hnew]
        simp [hid]
    · rw [Function.update_of_ne hother, ht.inverse]
      by_cases hid : bufferId = id
      · subst hid
        simp [hempty, Ne.symm hother]
      · rw [if_neg hid]
  slot_zero := by
    intro other id hmapped
    by_cases hother : other = uid
    · subst hother
      obtain rfl : bufferId = id := by simpa using hmapped
      obtain ⟨huid, hid⟩ | ⟨huid, hid, -⟩ := getAvailableBufferSlot_ok h
      · exact iff_of_true hid huid
      · exact iff_of_false (by omega) huid
    · rw [publish_uidToBufferId, Function.update_of_ne hother] at hmapped
      exact ht.slot_zero other id hmapped

theorem emptySlots_publish (ht : Tables cfg pool) (hnew : pool.uidToBufferId uid = none)
    (h : getAvailableBufferSlot cfg pool uid = .ok bufferId) :
    emptySlots pool ≤ emptySlots (pool.publish uid bufferId) + if uid = noLora then 0 else 1 := by
  have hempty := ht.slot_empty hnew h
  obtain ⟨entries, hentries⟩ : ∃ entries, pool.bufferIdToUid = entries := ⟨_, rfl⟩
  unfold emptySlots LoraMemoryPool.publish
  rw [hentries] at hempty ⊢
  obtain ⟨rfl, rfl⟩ | ⟨huid, hid, -⟩ := getAvailableBufferSlot_ok h
  · cases entries <;> simp
  · obtain ⟨id, rfl⟩ : ∃ id, bufferId = id + 1 := ⟨bufferId - 1, by omega⟩
    cases entries with
    | nil => simp at hempty
    | cons first rest =>
      rw [List.getElem?_cons_succ] at hempty
      obtain ⟨hlt, hentry⟩ := List.getElem?_eq_some_iff.mp hempty
      rw [if_neg huid, List.set_cons_succ, List.tail_cons, List.tail_cons, List.count_set hlt,
        hentry]
      simp only [beq_self_eq_true, if_true, reduceCtorEq, beq_iff_eq, if_false]
      omega

end tables

section load

variable [Zero K] {cfg : PoolConfig} {pool : LoraMemoryPool K} {uid : Uid} {bufferId : Nat}
  {loraAdapter : Option (LoraAdapter K)} {fuel : Option Nat} {buffers : Cell → Mat K}

/-- What an array of a slot holds for a uid: zeros without an adapter, else the adapter's array. -/
def Holds (cfg : PoolConfig) (loraAdapter : Option (LoraAdapter K)) (cell : Cell)
    (stored : Mat K) : Prop :=
  match loraAdapter with
  | none => stored = .zeros (cfg.shape cell.isLoraA cell.moduleName)
  | some adapter => RankPadded cfg adapter cell stored

/-- All layers and modules of a slot hold the adapter's arrays. -/
def SlotHolds (cfg : PoolConfig) (loraAdapter : Option (LoraAdapter K)) (buffers : Cell → Mat K)
    (bufferId : Nat) : Prop :=
  ∀ cell : Cell, cell.bufferId = bufferId → cell.layerId < cfg.numLayers →
    cell.moduleName ∈ cfg.targetModules → Holds cfg loraAdapter cell (buffers cell)

/-- The number of stores of one load. -/
def slotWrites (cfg : PoolConfig) : Nat := cfg.targetModules.length * (cfg.numLayers * 2)

theorem length_zeroCells : (zeroCells cfg bufferId).length = slotWrites cfg := by
  simp [zeroCells, slotWrites, List.length_flatMap]

theorem length_adapterCells : (adapterCells cfg bufferId).length = slotWrites cfg := by
  simp only [adapterCells, slotWrites, List.length_flatMap, List.length_cons, List.length_nil,
    List.map_const', List.sum_replicate_nat, List.length_range]
  rw [Nat.mul_left_comm]

theorem mem_zeroCells {cell : Cell} : cell ∈ zeroCells cfg bufferId ↔
    cell.bufferId = bufferId ∧ cell.layerId < cfg.numLayers ∧
      cell.moduleName ∈ cfg.targetModules := by
  obtain ⟨isLoraA, moduleName, layerId, id⟩ := cell
  simp only [zeroCells, List.mem_flatMap, List.mem_range, List.mem_cons, List.not_mem_nil,
    or_false, Cell.mk.injEq]
  constructor
  · rintro ⟨_, hmodule, _, hlayer, ⟨-, rfl, rfl, rfl⟩ | ⟨-, rfl, rfl, rfl⟩⟩
    · exact ⟨rfl, hlayer, hmodule⟩
    · exact ⟨rfl, hlayer, hmodule⟩
  · rintro ⟨rfl, hlayer, hmodule⟩
    refine ⟨moduleName, hmodule, layerId, hlayer, ?_⟩
    cases isLoraA <;> simp

theorem mem_adapterCells {cell : Cell} : cell ∈ adapterCells cfg bufferId ↔
    cell.bufferId = bufferId ∧ cell.layerId < cfg.numLayers ∧
      cell.moduleName ∈ cfg.targetModules := by
  rw [← mem_zeroCells]
  simp only [adapterCells, zeroCells, List.mem_flatMap]
  constructor
  · rintro ⟨layerId, hlayer, moduleName, hmodule, hcell⟩
    exact ⟨moduleName, hmodule, layerId, hlayer, hcell⟩
  · rintro ⟨moduleName, hmodule, layerId, hlayer, hcell⟩
    exact ⟨layerId, hlayer, moduleName, hmodule, hcell⟩

/-- A load, finished or not, leaves the other slots alone. -/
theorem load_other {cell : Cell} (h : cell.bufferId ≠ bufferId) :
    (loadLoraWeightToBuffer cfg bufferId loraAdapter fuel buffers).1 cell = buffers cell := by
  cases loraAdapter with
  | none => exact writeAll_of_notMem fun hmem => h (mem_zeroCells.mp hmem).1
  | some adapter => exact writeAll_of_notMem fun hmem => h (mem_adapterCells.mp hmem).1

theorem load_completes (hfits : ∀ adapter, loraAdapter = some adapter → Fits cfg adapter)
    (hlasts : Lasts fuel (slotWrites cfg)) :
    (loadLoraWeightToBuffer cfg bufferId loraAdapter fuel buffers).2 = .ok () := by
  cases loraAdapter with
  | none =>
    apply writeAll_completes
    · rwa [length_zeroCells]
    · exact fun cell _ => ⟨_, rfl⟩
  | some adapter =>
    apply writeAll_completes
    · rwa [length_adapterCells]
    · intro cell hcell
      obtain ⟨-, hlayer, hmodule⟩ := mem_adapterCells.mp hcell
      obtain ⟨stored, hstored, -⟩ := (hfits adapter rfl).cellValue_ok hlayer hmodule
      exact ⟨stored, hstored⟩

theorem load_holds (hfits : ∀ adapter, loraAdapter = some adapter → Fits cfg adapter)
    (h : (loadLoraWeightToBuffer cfg bufferId loraAdapter fuel buffers).2 = .ok ()) :
    SlotHolds cfg loraAdapter (loadLoraWeightToBuffer cfg bufferId loraAdapter fuel buffers).1
      bufferId := by
  intro cell hid hlayer hmodule
  cases loraAdapter with
  | none =>
    have hvalue := writeAll_ok h (mem_zeroCells.mpr ⟨hid, hlayer, hmodule⟩)
    injection hvalue with hvalue
    exact hvalue.symm
  | some adapter =>
    have hvalue := writeAll_ok h (mem_adapterCells.mpr ⟨hid, hlayer, hmodule⟩)
    obtain ⟨stored, hstored, hpadded⟩ := (hfits adapter rfl).cellValue_ok hlayer hmodule
    rw [hstored] at hvalue
    injection hvalue with hvalue
    exact hvalue ▸ hpadded

end load

section prepare

variable [Zero K] {cfg : PoolConfig} {pool : LoraMemoryPool K} {uid : Uid} {uids : List Uid}
  {loras : Text → Option (LoraAdapter K)} {fuel : Uid → Option Nat}

/-- Every slot a uid is mapped to holds its adapter's arrays. -/
def Loaded (cfg : PoolConfig) (loras : Text → Option (LoraAdapter K)) (pool : LoraMemoryPool K) :
    Prop :=
  ∀ uid bufferId, pool.uidToBufferId uid = some bufferId →
    SlotHolds cfg (getAdapter loras uid) pool.buffers bufferId

/-- The uids that need one of the empty slots. -/
def slotSeekers (pool : LoraMemoryPool K) (uids : List Uid) : List Uid :=
  uids.filter fun uid => (pool.uidToBufferId uid).isNone ∧ uid ≠ noLora

/-- A slot is empty for every uid that needs one. -/
def Room (pool : LoraMemoryPool K) (uids : List Uid) : Prop :=
  (slotSeekers pool uids).length ≤ emptySlots pool

/-- Nothing goes wrong while the weights of the new uids are loaded: their adapters fit the pool
and the device takes all stores. -/
def Loadable (cfg : PoolConfig) (loras : Text → Option (LoraAdapter K))
    (fuel : Uid → Option Nat) (pool : LoraMemoryPool K) (uids : List Uid) : Prop :=
  ∀ uid ∈ uids, pool.uidToBufferId uid = none →
    (∀ adapter, getAdapter loras uid = some adapter → Fits cfg adapter) ∧
      Lasts (fuel uid) (slotWrites cfg)

/-- The tables stay inverse to each other even when the loop raises. -/
theorem prepareUids_tables {hasNewWeights : Bool} (ht : Tables cfg pool) :
    Tables cfg (prepareUids cfg loras fuel uids pool hasNewWeights).1 := by
  induction uids generalizing pool hasNewWeights with
  | nil => exact ht
  | cons uid rest ih =>
    unfold prepareUids
    split
    · exact ih ht
    · rename_i hnew
      have hnew : pool.uidToBufferId uid = none := by simpa using hnew
      split
      · exact ht
      · rename_i bufferId hslot
        have hpublished := ht.publish hnew hslot
        dsimp only
        split
        · exact ⟨hpublished.length, hpublished.inverse, hpublished.slot_zero⟩
        · exact ih ⟨hpublished.length, hpublished.inverse, hpublished.slot_zero⟩

/-- The loop keeps the uids it found. -/
theorem prepareUids_keeps {hasNewWeights : Bool} {bufferId : Nat}
    (h : pool.uidToBufferId uid = some bufferId) :
    (prepareUids cfg loras fuel uids pool hasNewWeights).1.uidToBufferId uid = some bufferId := by
  induction uids generalizing pool hasNewWeights with
  | nil => exact h
  | cons first rest ih =>
    unfold prepareUids
    split
    · exact ih h
    · rename_i hnew
      split
      · exact h
      · rename_i slot _
        have hne : uid ≠ first := by
          rintro rfl
          simp [h] at hnew
        have hkept : (pool.publish first slot).uidToBufferId uid = some bufferId := by
          rw [publish_uidToBufferId, Function.update_of_ne hne, h]
        dsimp only
        split
        · exact hkept
        · exact ih hkept

/-- A loop that returns has mapped all of its uids. -/
theorem prepareUids_maps {hasNewWeights result : Bool}
    (h : (prepareUids cfg loras fuel uids pool hasNewWeights).2 = .ok result) (huid : uid ∈ uids) :
    ∃ bufferId,
      (prepareUids cfg loras fuel uids pool hasNewWeights).1.uidToBufferId uid = some bufferId := by
  induction uids generalizing pool hasNewWeights with
  | nil => simp at huid
  | cons first rest ih =>
    unfold prepareUids at h ⊢
    split at h
    · rename_i hmapped
      rw [if_pos hmapped]
      rcases List.mem_cons.mp huid with rfl | hrest
      · obtain ⟨bufferId, hid⟩ := Option.isSome_iff_exists.mp hmapped
        exact ⟨bufferId, prepareUids_keeps hid⟩
      · exact ih h hrest
    · rename_i hnew
      rw [if_neg hnew]
      split at h
      · cases h
      · rename_i bufferId hslot
        dsimp only at h ⊢
        split at h
        · cases h
        · rcases List.mem_cons.mp huid with rfl | hrest
          · exact ⟨bufferId, prepareUids_keeps (Function.update_self ..)⟩
          · exact ih h hrest

/-- A loop over uids that are all mapped does nothing. -/
theorem prepareUids_mapped {hasNewWeights : Bool}
    (h : ∀ uid ∈ uids, (pool.uidToBufferId uid).isSome) :
    prepareUids cfg loras fuel uids pool hasNewWeights = (pool, .ok hasNewWeights) := by
  induction uids with
  | nil => rfl
  | cons uid rest ih =>
    rw [prepareUids, if_pos (h uid List.mem_cons_self)]
    exact ih fun other hother => h other (List.mem_cons_of_mem uid hother)

/-- A loop that returns has loaded weights or left the pool as it was. -/
theorem prepareUids_unchanged {hasNewWeights : Bool}
    (h : (prepareUids cfg loras fuel uids pool hasNewWeights).2 = .ok false) :
    (prepareUids cfg loras fuel uids pool hasNewWeights).1 = pool ∧ hasNewWeights = false := by
  induction uids generalizing pool hasNewWeights with
  | nil =>
    injection h with h
    exact ⟨rfl, h⟩
  | cons first rest ih =>
    unfold prepareUids at h ⊢
    split at h
    · rename_i hmapped
      rw [if_pos hmapped]
      exact ih h
    · split at h
      · cases h
      · dsimp only at h
        split at h
        · cases h
        · exact absurd (ih h).2 (by simp)

omit [Zero K] in
theorem slotSeekers_publish {first : Uid} {bufferId : Nat} (h : first ∉ uids) :
    slotSeekers (pool.publish first bufferId) uids = slotSeekers pool uids := by
  unfold slotSeekers
  apply List.filter_congr
  intro uid huid
  have hne : uid ≠ first := by
    rintro rfl
    exact h huid
  rw [publish_uidToBufferId, Function.update_of_ne hne]

omit [Zero K] in
/-- One new uid takes at most one of the slots there is room for. -/
theorem Room.publish {bufferId : Nat} (hroom : Room pool (uid :: uids)) (ht : Tables cfg pool)
    (hnew : pool.uidToBufferId uid = none)
    (hslot : getAvailableBufferSlot cfg pool uid = .ok bufferId) (h : uid ∉ uids) :
    Room (pool.publish uid bufferId) uids := by
  have hempty := emptySlots_publish ht hnew hslot
  unfold Room at hroom ⊢
  rw [slotSeekers_publish h]
  unfold slotSeekers at hroom ⊢
  rw [List.filter_cons] at hroom
  by_cases huid : uid = noLora
  · simp only [huid, ne_eq, not_true_eq_false, and_false, decide_false, Bool.false_eq_true,
      if_false] at hroom
    rw [if_pos huid] at hempty
    exact hroom.trans hempty
  · simp only [hnew, Option.isNone_none, ne_eq, huid, not_false_eq_true, and_self, decide_true,
      if_true, List.length_cons] at hroom
    rw [if_neg huid] at hempty
    exact Nat.le_of_succ_le_succ (hroom.trans hempty)

omit [Zero K] in
theorem Room.pos (hroom : Room pool (uid :: uids)) (hnew : pool.uidToBufferId uid = none)
    (huid : uid ≠ noLora) : 0 < emptySlots pool := by
  unfold Room slotSeekers at hroom
  rw [List.filter_cons_of_pos (by simp [hnew, huid]), List.length_cons] at hroom
  omega

/-- A load that runs to its end keeps what the other slots hold. -/
theorem Loaded.load {bufferId : Nat} (hl : Loaded cfg loras pool) (ht : Tables cfg pool)
    (hnew : pool.uidToBufferId uid = none)
    (hslot : getAvailableBufferSlot cfg pool uid = .ok bufferId)
    (hfits : ∀ adapter, getAdapter loras uid = some adapter → Fits cfg adapter)
    (hdone : (loadLoraWeightToBuffer cfg bufferId (getAdapter loras uid) (fuel uid)
      pool.buffers).2 = .ok ()) :
    Loaded cfg loras
      { pool.publish uid bufferId with
        buffers := (loadLoraWeightToBuffer cfg bufferId (getAdapter loras uid) (fuel uid)
          pool.buffers).1 } := by
  intro other id hentered
  have hmapped : Function.update pool.uidToBufferId uid (some bufferId) other = some id :=
    hentered
  clear hentered
  by_cases hother : other = uid
  · subst hother
    rw [Function.update_self] at hmapped
    injection hmapped with hid
    exact hid ▸ load_holds hfits hdone
  · rw [Function.update_of_ne hother] at hmapped
    -- the slot of another uid is not the empty one
    have hid : id ≠ bufferId := by
      rintro rfl
      have hentry := (ht.inverse other id).mp hmapped
      rw [ht.slot_empty hnew hslot] at hentry
      cases hentry
    intro cell hcell hlayer hmodule
    dsimp only
    rw [load_other (hcell ▸ hid)]
    exact hl other id hmapped cell hcell hlayer hmodule

theorem prepareUids_returns {hasNewWeights : Bool} (ht : Tables cfg pool) (hnodup : uids.Nodup)
    (hroom : Room pool uids) (hloadable : Loadable cfg loras fuel pool uids)
    (hl : Loaded cfg loras pool) :
    ∃ result, (prepareUids cfg loras fuel uids pool hasNewWeights).2 = .ok result ∧
      Loaded cfg loras (prepareUids cfg loras fuel uids pool hasNewWeights).1 := by
  induction uids generalizing pool hasNewWeights with
  | nil => exact ⟨hasNewWeights, rfl, hl⟩
  | cons uid rest ih =>
    obtain ⟨hmem, hrest⟩ := List.nodup_cons.mp hnodup
    have hloadable' : Loadable cfg loras fuel pool rest :=
      fun other hother => hloadable other (List.mem_cons_of_mem uid hother)
    unfold prepareUids
    split
    · rename_i hmapped
      apply ih ht hrest ?_ hloadable' hl
      unfold Room slotSeekers at hroom
      rwa [List.filter_cons_of_neg (by simp [Option.isSome_iff_ne_none.mp hmapped])] at hroom
    · rename_i hnew
      have hnew : pool.uidToBufferId uid = none := by simpa using hnew
      obtain ⟨bufferId, hslot⟩ := getAvailableBufferSlot_room ht (hroom.pos hnew)
      obtain ⟨hfits, hlasts⟩ := hloadable uid List.mem_cons_self hnew
      have hdone : (loadLoraWeightToBuffer cfg bufferId (getAdapter loras uid) (fuel uid)
          pool.buffers).2 = .ok () := load_completes hfits hlasts
      have hpublished := ht.publish hnew hslot
      have hloaded := hl.load ht hnew hslot hfits hdone
      have hmaps : (loadLoraWeightToBuffer cfg bufferId (getAdapter loras uid) (fuel uid)
          (pool.publish uid bufferId).buffers) =
          ((loadLoraWeightToBuffer cfg bufferId (getAdapter loras uid) (fuel uid)
            pool.buffers).1, .ok ()) := Prod.ext rfl hdone
      rw [hslot]
      dsimp only
      rw [hmaps]
      dsimp only
      have htables : Tables cfg { pool.publish uid bufferId with
          buffers := (loadLoraWeightToBuffer cfg bufferId (getAdapter loras uid) (fuel uid)
            pool.buffers).1 } :=
        ⟨hpublished.length, hpublished.inverse, hpublished.slot_zero⟩
      apply ih htables hrest (hroom.publish ht hnew hslot hmem) ?_ hloaded
      intro other hother hunmapped
      have hne : other ≠ uid := by
        rintro rfl
        exact hmem hother
      have hunmapped : Function.update pool.uidToBufferId uid (some bufferId) other = none :=
        hunmapped
      rw [Function.update_of_ne hne] at hunmapped
      exact hloadable' other hother hunmapped

end prepare

end

end SglJax.Lora
