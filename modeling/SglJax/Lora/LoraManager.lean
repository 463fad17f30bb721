import Mathlib
import SglJax.Lora.LoraMemoryPool

/-! Batches of the LoRA manager. A call that raises can leave a uid mapped to a slot without its
weights, and the next batch of that uid runs with whatever the slot holds. -/
namespace SglJax.Lora

section

variable {K : Type}

/-- What is fixed when the manager starts. -/
structure LoraServer (K : Type) where
  cfg : PoolConfig
  staticLora : Bool
  /-- `server_args.lora_scaling` -/
  loraScaling : Rat
  loras : Text → Option (LoraAdapter K)

structure LoraManager (K : Type) where
  memoryPool : LoraMemoryPool K
  /-- The buffers the layers got from `update_lora_info`. -/
  moduleBuffers : Cell → Mat K
  hasNewWeights : Bool

/-- A batch, with the order in which `set(lora_ids)` is walked and what goes wrong outside the
manager: stores that the device refuses, and an assertion of the backend on the token counts. -/
structure LoraBatch where
  loraIds : List Uid
  curUids : List Uid
  nodup : curUids.Nodup
  mem_curUids : ∀ uid, uid ∈ curUids ↔ uid ∈ loraIds
  fuel : Uid → Option Nat
  backendError : Option LoraError

/-- The arguments of the backend's `prepare_lora_batch`. -/
structure BatchInfo where
  weightIndices : List Nat
  loraRanks : List Nat
  scalings : List Rat
deriving DecidableEq, Repr

/-- `values[index] = value` -/
def setItem {α : Type} (values : List α) (index : Nat) (value : α) : Except LoraError (List α) :=
  if index < values.length then .ok (values.set index value) else .error .indexError

/-- The loop over `lora_ids`. -/
def assignSlots (pool : LoraMemoryPool K) (loras : Text → Option (LoraAdapter K)) :
    List Uid → BatchInfo → Except LoraError BatchInfo
  | [], info => .ok info
  | uid :: rest, info => do
    let bufferId ← pool.getBufferId uid
    let info := { info with weightIndices := info.weightIndices ++ [bufferId] }
    match getAdapter loras uid with
    | none => assignSlots pool loras rest info
    | some lora =>
      let loraRanks ← setItem info.loraRanks bufferId lora.r
      let scalings ← setItem info.scalings bufferId lora.scaling
      assignSlots pool loras rest { info with loraRanks, scalings }

/-- `weight_indices` grows with the loop; the other two lists start with zeros. -/
def noInfo (cfg : PoolConfig) : BatchInfo where
  weightIndices := []
  loraRanks := List.replicate cfg.maxLorasPerBatch 0
  scalings := List.replicate cfg.maxLorasPerBatch 0

def staticInfo (server : LoraServer K) (batch : LoraBatch) : BatchInfo where
  weightIndices := List.replicate batch.loraIds.length 0
  loraRanks := List.replicate server.cfg.maxLorasPerBatch server.cfg.maxLoraRank
  scalings := List.replicate server.cfg.maxLorasPerBatch server.loraScaling

def LoraManager.init [Zero K] (server : LoraServer K) : LoraManager K where
  memoryPool := .init server.cfg
  moduleBuffers := (LoraMemoryPool.init server.cfg).buffers
  hasNewWeights := false

def LoraManager.prepareLoraBatch [Zero K] (server : LoraServer K) (manager : LoraManager K)
    (batch : LoraBatch) : LoraManager K × Except LoraError BatchInfo :=
  if server.cfg.maxLorasPerBatch < batch.curUids.length then (manager, .error .assertionError)
  else if server.staticLora then
    match batch.backendError with
    | some e => (manager, .error e)
    | none => ({ manager with hasNewWeights := false }, .ok (staticInfo server batch))
  else
    match manager.memoryPool.prepareLoraBatch server.cfg batch.curUids server.loras batch.fuel with
    | (memoryPool, .error e) => ({ manager with memoryPool }, .error e)
    | (memoryPool, .ok hasNewWeights) =>
      match assignSlots memoryPool server.loras batch.loraIds (noInfo server.cfg),
        batch.backendError with
      | .error e, _ => ({ manager with memoryPool }, .error e)
      | .ok _, some e => ({ manager with memoryPool }, .error e)
      | .ok info, none =>
        ({ memoryPool, hasNewWeights
           moduleBuffers := if hasNewWeights then memoryPool.buffers else manager.moduleBuffers },
          .ok info)

section assign

variable {cfg : PoolConfig} {pool : LoraMemoryPool K} {loras : Text → Option (LoraAdapter K)}
  {done : List Uid} {info : BatchInfo} {uid : Uid} {bufferId : Nat}

/-- The rank of a uid's adapter, or zero without one. -/
def rankOf (loras : Text → Option (LoraAdapter K)) (uid : Uid) : Nat :=
  (getAdapter loras uid).elim 0 LoraAdapter.r

def scalingOf (loras : Text → Option (LoraAdapter K)) (uid : Uid) : Rat :=
  (getAdapter loras uid).elim 0 LoraAdapter.scaling

/-- The lists after the uids `done`: their slots have their ranks and scalings, the other slots
are still zero. -/
structure Assigned (cfg : PoolConfig) (pool : LoraMemoryPool K)
    (loras : Text → Option (LoraAdapter K)) (done : List Uid) (info : BatchInfo) : Prop where
  length_ranks : info.loraRanks.length = cfg.maxLorasPerBatch
  length_scalings : info.scalings.length = cfg.maxLorasPerBatch
  rank : ∀ uid bufferId, pool.uidToBufferId uid = some bufferId →
    info.loraRanks[bufferId]? = some (if uid ∈ done then rankOf loras uid else 0)
  scaling : ∀ uid bufferId, pool.uidToBufferId uid = some bufferId →
    info.scalings[bufferId]? = some (if uid ∈ done then scalingOf loras uid else 0)

theorem Tables.lt (ht : Tables cfg pool) (h : pool.uidToBufferId uid = some bufferId) :
    bufferId < cfg.maxLorasPerBatch := by
  have hentry := (ht.inverse uid bufferId).mp h
  exact ht.length ▸ (List.getElem?_eq_some_iff.mp hentry).1

/-- Different uids have different slots. -/
theorem Tables.uid_eq (ht : Tables cfg pool) {other : Uid}
    (h : pool.uidToBufferId uid = some bufferId) (h' : pool.uidToBufferId other = some bufferId) :
    other = uid := by
  have hentry := (ht.inverse uid bufferId).mp h
  rw [(ht.inverse other bufferId).mp h'] at hentry
  simpa using hentry

theorem assigned_noInfo (ht : Tables cfg pool) : Assigned cfg pool loras [] (noInfo cfg) where
  length_ranks := List.length_replicate
  length_scalings := List.length_replicate
  rank := by
    intro uid bufferId h
    simp [noInfo, ht.lt h]
  scaling := by
    intro uid bufferId h
    simp [noInfo, ht.lt h]

/-- Setting the entry of one uid's slot, or leaving a zero where the uid has no adapter. -/
theorem entry_append {α : Type} {values : List α} {value : Uid → α} {zero : α}
    (ht : Tables cfg pool) (hlen : values.length = cfg.maxLorasPerBatch)
    (hvalues : ∀ uid bufferId, pool.uidToBufferId uid = some bufferId →
      values[bufferId]? = some (if uid ∈ done then value uid else zero))
    (h : pool.uidToBufferId uid = some bufferId) :
    ∀ other id, pool.uidToBufferId other = some id →
      (values.set bufferId (value uid))[id]? =
        some (if other ∈ done ++ [uid] then value other else zero) := by
  intro other id hother
  rw [List.getElem?_set]
  by_cases hid : bufferId = id
  · subst hid
    obtain rfl := ht.uid_eq h hother
    rw [if_pos rfl, if_pos (hlen ▸ ht.lt h), if_pos (by simp)]
  · have hne : other ≠ uid := by
      rintro rfl
      rw [h] at hother
      exact hid (by simpa using hother)
    rw [if_neg hid, hvalues other id hother]
    simp [hne]

theorem set_zero {α : Type} {values : List α} {value : Uid → α} {zero : α}
    (hvalues : values[bufferId]? = some (if uid ∈ done then value uid else zero))
    (hzero : value uid = zero) : values.set bufferId (value uid) = values := by
  have hentry : values[bufferId]? = some (value uid) := by simpa [hzero] using hvalues
  obtain ⟨hlt, hget⟩ := List.getElem?_eq_some_iff.mp hentry
  rw [← hget, List.set_getElem_self]

theorem assignSlots_ok (ht : Tables cfg pool) {uids : List Uid}
    (hmapped : ∀ uid ∈ uids, ∃ bufferId, pool.uidToBufferId uid = some bufferId)
    (ha : Assigned cfg pool loras done info) :
    ∃ result, assignSlots pool loras uids info = .ok result ∧
      Assigned cfg pool loras (done ++ uids) result ∧
      result.weightIndices =
        info.weightIndices ++ uids.map fun uid => (pool.uidToBufferId uid).getD 0 := by
  induction uids generalizing done info with
  | nil => exact ⟨info, rfl, by simpa using ha, by simp⟩
  | cons uid rest ih =>
    obtain ⟨bufferId, hid⟩ := hmapped uid List.mem_cons_self
    have hslot : pool.getBufferId uid = .ok bufferId := by
      unfold LoraMemoryPool.getBufferId
      rw [hid]
      rfl
    have hnext : Assigned cfg pool loras (done ++ [uid])
        { weightIndices := info.weightIndices ++ [bufferId]
          loraRanks := info.loraRanks.set bufferId (rankOf loras uid)
          scalings := info.scalings.set bufferId (scalingOf loras uid) } :=
      { length_ranks := by simp [ha.length_ranks]
        length_scalings := by simp [ha.length_scalings]
        rank := entry_append ht ha.length_ranks ha.rank hid
        scaling := entry_append ht ha.length_scalings ha.scaling hid }
    obtain ⟨result, hresult, hassigned, hindices⟩ :=
      ih (fun other hother => hmapped other (List.mem_cons_of_mem uid hother)) hnext
    refine ⟨result, ?_, by simpa using hassigned, by simpa [hid] using hindices⟩
    rw [← hresult, assignSlots, hslot, ok_bind]
    cases hadapter : getAdapter loras uid with
    | none =>
      have hrank : rankOf loras uid = 0 := by simp [rankOf, hadapter]
      have hscaling : scalingOf loras uid = 0 := by simp [scalingOf, hadapter]
      rw [set_zero (ha.rank uid bufferId hid) hrank,
        set_zero (ha.scaling uid bufferId hid) hscaling]
    | some lora =>
      have hlt := ht.lt hid
      simp only [setItem, ha.length_ranks, ha.length_scalings, hlt, if_true, ok_bind]
      simp [rankOf, scalingOf, hadapter]

end assign

section runs

variable [Zero K] {server : LoraServer K} {manager : LoraManager K} {batch : LoraBatch}

/-- What holds between the calls: the tables are inverse to each other with only requests without
LoRA in slot 0, the slot of every mapped uid holds its adapter's arrays, and the layers read these
buffers. -/
structure Sound (server : LoraServer K) (manager : LoraManager K) : Prop where
  tables : Tables server.cfg manager.memoryPool
  loaded : Loaded server.cfg server.loras manager.memoryPool
  current : manager.moduleBuffers = manager.memoryPool.buffers

/-- The slot a request's tokens use. A static adapter sits in slot 0. -/
def ownSlot (server : LoraServer K) (manager : LoraManager K) (uid : Uid) : Option Nat :=
  if server.staticLora then some 0 else manager.memoryPool.uidToBufferId uid

def ownRank (server : LoraServer K) (uid : Uid) : Nat :=
  if server.staticLora then server.cfg.maxLoraRank else rankOf server.loras uid

def ownScaling (server : LoraServer K) (uid : Uid) : Rat :=
  if server.staticLora then server.loraScaling else scalingOf server.loras uid

/-- What a call has to do: raise the documented error when it cannot find a slot, and give each
request the slot, the rank and the scaling of its adapter when it returns. -/
structure Served (server : LoraServer K) (manager : LoraManager K) (batch : LoraBatch) : Prop where
  no_slot : server.staticLora = false → ¬ Room manager.memoryPool batch.curUids →
    (manager.prepareLoraBatch server batch).2 =
      .error (.noAvailableBufferSlots server.cfg.maxLorasPerBatch)
  assigned : ∀ info, (manager.prepareLoraBatch server batch).2 = .ok info →
    ∀ (i : Nat) (uid : Uid), batch.loraIds[i]? = some uid →
      ∃ bufferId, ownSlot server (manager.prepareLoraBatch server batch).1 uid = some bufferId ∧
        info.weightIndices[i]? = some bufferId ∧
        info.loraRanks[bufferId]? = some (ownRank server uid) ∧
        info.scalings[bufferId]? = some (ownScaling server uid)

/-- Nothing goes wrong: an empty slot for each new adapter, nothing that fails while their
weights are loaded, and no batch with new adapters that the backend rejects afterwards. -/
structure Accepted (server : LoraServer K) (manager : LoraManager K) (batch : LoraBatch) :
    Prop where
  distinct : batch.curUids.length ≤ server.cfg.maxLorasPerBatch
  room : server.staticLora = false → Room manager.memoryPool batch.curUids
  loadable : server.staticLora = false →
    Loadable server.cfg server.loras batch.fuel manager.memoryPool batch.curUids
  backend : batch.backendError = none ∨ server.staticLora = true ∨
    ∀ uid ∈ batch.curUids, (manager.memoryPool.uidToBufferId uid).isSome

/-- The states of runs whose calls are all accepted. -/
inductive Reached (server : LoraServer K) : LoraManager K → Prop where
  | init : Reached server (.init server)
  | step {manager : LoraManager K} (batch : LoraBatch) (h : Reached server manager)
      (ha : Accepted server manager batch) :
      Reached server (manager.prepareLoraBatch server batch).1

theorem sound_init (server : LoraServer K) : Sound server (.init server) where
  tables := tables_init
  loaded := by
    intro uid bufferId h
    simp [LoraManager.init, LoraMemoryPool.init] at h
  current := rfl

omit [Zero K] in
/-- The batch rows of a pool that has a slot for every request. -/
theorem assigned_rows {cfg : PoolConfig} {pool : LoraMemoryPool K}
    (loras : Text → Option (LoraAdapter K)) {ids : List Uid} (ht : Tables cfg pool)
    (hmapped : ∀ uid ∈ ids, ∃ bufferId, pool.uidToBufferId uid = some bufferId) :
    ∃ info, assignSlots pool loras ids (noInfo cfg) = .ok info ∧
      ∀ (i : Nat) (uid : Uid), ids[i]? = some uid →
        ∃ bufferId, pool.uidToBufferId uid = some bufferId ∧
          info.weightIndices[i]? = some bufferId ∧
          info.loraRanks[bufferId]? = some (rankOf loras uid) ∧
          info.scalings[bufferId]? = some (scalingOf loras uid) := by
  obtain ⟨info, hinfo, hassigned, hindices⟩ := assignSlots_ok ht hmapped (assigned_noInfo ht)
  refine ⟨info, hinfo, ?_⟩
  intro i uid hi
  have huid : uid ∈ ids := List.mem_of_getElem? hi
  obtain ⟨bufferId, hid⟩ := hmapped uid huid
  have hrank := hassigned.rank uid bufferId hid
  have hscaling := hassigned.scaling uid bufferId hid
  rw [List.nil_append, if_pos huid] at hrank hscaling
  refine ⟨bufferId, hid, ?_, hrank, hscaling⟩
  rw [hindices]
  simp [noInfo, hi, hid]

/-- What a call that returns has done. -/
theorem prepareLoraBatch_ok {info : BatchInfo}
    (h : (manager.prepareLoraBatch server batch).2 = .ok info) :
    (server.staticLora = true ∧ info = staticInfo server batch) ∨
      (server.staticLora = false ∧
        ∃ hasNewWeights,
          (manager.memoryPool.prepareLoraBatch server.cfg batch.curUids server.loras
            batch.fuel).2 = .ok hasNewWeights ∧
          (manager.prepareLoraBatch server batch).1.memoryPool =
            (manager.memoryPool.prepareLoraBatch server.cfg batch.curUids server.loras
              batch.fuel).1 ∧
          assignSlots (manager.prepareLoraBatch server batch).1.memoryPool server.loras
            batch.loraIds (noInfo server.cfg) = .ok info) := by
  unfold LoraManager.prepareLoraBatch at h ⊢
  split at h
  · cases h
  rename_i hdistinct
  rw [if_neg hdistinct]
  split at h
  · rename_i hstatic
    split at h
    · cases h
    · injection h with h
      exact .inl ⟨hstatic, h.symm⟩
  · rename_i hstatic
    rw [if_neg hstatic]
    refine .inr ⟨by simpa using hstatic, ?_⟩
    split at h
    · cases h
    · rename_i memoryPool hasNewWeights hpool
      split at h
      · cases h
      · cases h
      · rename_i result hassign hbackend
        injection h with h
        subst h
        simp only [hpool, hassign]
        exact ⟨hasNewWeights, rfl, trivial, trivial⟩

/-- A call the backend rejects without new adapters leaves the manager as it was. -/
theorem prepareLoraBatch_rejected {e : LoraError} (hs : Sound server manager)
    (hbackend : batch.backendError = some e) (hstatic : server.staticLora = false)
    (hmapped : ∀ uid ∈ batch.curUids, (manager.memoryPool.uidToBufferId uid).isSome) :
    (manager.prepareLoraBatch server batch).1 = manager := by
  have hpool : manager.memoryPool.prepareLoraBatch server.cfg batch.curUids server.loras
      batch.fuel = (manager.memoryPool, .ok false) := prepareUids_mapped hmapped
  have hids : ∀ uid ∈ batch.loraIds, ∃ bufferId,
      manager.memoryPool.uidToBufferId uid = some bufferId :=
    fun uid huid => Option.isSome_iff_exists.mp (hmapped uid ((batch.mem_curUids uid).mpr huid))
  obtain ⟨info, hinfo, -⟩ := assigned_rows server.loras hs.tables hids
  unfold LoraManager.prepareLoraBatch
  rw [hstatic, hbackend, hpool]
  split
  · rfl
  · simp only [hinfo]
    rfl

/-- What holds between the calls holds after an accepted call. -/
theorem Sound.step (hs : Sound server manager) (ha : Accepted server manager batch) :
    Sound server (manager.prepareLoraBatch server batch).1 := by
  have hdistinct : ¬ server.cfg.maxLorasPerBatch < batch.curUids.length := by
    have := ha.distinct
    omega
  cases hstatic : server.staticLora with
  | true =>
    unfold LoraManager.prepareLoraBatch
    rw [if_neg hdistinct, if_pos hstatic]
    split
    · exact hs
    · exact ⟨hs.tables, hs.loaded, hs.current⟩
  | false =>
    cases hbackend : batch.backendError with
    | some e =>
      have hmapped : ∀ uid ∈ batch.curUids, (manager.memoryPool.uidToBufferId uid).isSome := by
        simpa [hbackend, hstatic] using ha.backend
      rwa [prepareLoraBatch_rejected hs hbackend hstatic hmapped]
    | none =>
      unfold LoraManager.prepareLoraBatch
      rw [if_neg hdistinct, hstatic, hbackend, if_neg Bool.false_ne_true]
      obtain ⟨hasNewWeights, hreturn, hloaded⟩ : ∃ result,
          (manager.memoryPool.prepareLoraBatch server.cfg batch.curUids server.loras
            batch.fuel).2 = .ok result ∧
          Loaded server.cfg server.loras (manager.memoryPool.prepareLoraBatch server.cfg
            batch.curUids server.loras batch.fuel).1 :=
        prepareUids_returns hs.tables batch.nodup (ha.room hstatic) (ha.loadable hstatic)
          hs.loaded
      have htables : Tables server.cfg (manager.memoryPool.prepareLoraBatch server.cfg
          batch.curUids server.loras batch.fuel).1 := prepareUids_tables hs.tables
      have hmapped : ∀ uid ∈ batch.loraIds, ∃ bufferId, (manager.memoryPool.prepareLoraBatch
          server.cfg batch.curUids server.loras batch.fuel).1.uidToBufferId uid =
            some bufferId :=
        fun uid huid => prepareUids_maps hreturn ((batch.mem_curUids uid).mpr huid)
      have hunchanged : hasNewWeights = false → (manager.memoryPool.prepareLoraBatch server.cfg
          batch.curUids server.loras batch.fuel).1 = manager.memoryPool := by
        rintro rfl
        exact (prepareUids_unchanged hreturn).1
      generalize manager.memoryPool.prepareLoraBatch server.cfg batch.curUids server.loras
        batch.fuel = prepared at *
      obtain ⟨memoryPool, result⟩ := prepared
      dsimp only at *
      subst hreturn
      obtain ⟨info, hinfo, -⟩ := assigned_rows server.loras htables hmapped
      simp only [hinfo]
      refine ⟨htables, hloaded, ?_⟩
      dsimp only
      cases hasNewWeights with
      | true => rfl
      | false =>
        rw [hunchanged rfl]
        exact hs.current

/-- A call that returns gives each request the slot, rank and scaling of its adapter. -/
theorem Sound.assigned (hs : Sound server manager) {info : BatchInfo}
    (h : (manager.prepareLoraBatch server batch).2 = .ok info) (i : Nat) (uid : Uid)
    (hi : batch.loraIds[i]? = some uid) :
    ∃ bufferId, ownSlot server (manager.prepareLoraBatch server batch).1 uid = some bufferId ∧
      info.weightIndices[i]? = some bufferId ∧
      info.loraRanks[bufferId]? = some (ownRank server uid) ∧
      info.scalings[bufferId]? = some (ownScaling server uid) := by
  obtain ⟨hstatic, rfl⟩ | ⟨hstatic, hasNewWeights, hreturn, hpool, hassign⟩ :=
    prepareLoraBatch_ok h
  · have hlt : i < batch.loraIds.length := (List.getElem?_eq_some_iff.mp hi).1
    have hpos := server.cfg.maxLorasPerBatch_pos
    refine ⟨0, by simp [ownSlot, hstatic], ?_, ?_, ?_⟩
    · simp [staticInfo, hlt]
    · simp [staticInfo, ownRank, hstatic, hpos]
    · simp [staticInfo, ownScaling, hstatic, hpos]
  · have htables : Tables server.cfg (manager.prepareLoraBatch server batch).1.memoryPool := by
      rw [hpool]
      exact prepareUids_tables hs.tables
    have hmapped : ∀ uid ∈ batch.loraIds, ∃ bufferId,
        (manager.prepareLoraBatch server batch).1.memoryPool.uidToBufferId uid =
          some bufferId := by
      intro other hother
      rw [hpool]
      exact prepareUids_maps hreturn ((batch.mem_curUids other).mpr hother)
    obtain ⟨result, hresult, hrows⟩ := assigned_rows server.loras htables hmapped
    rw [hassign] at hresult
    injection hresult with hresult
    subst hresult
    simpa [ownSlot, ownRank, ownScaling, hstatic] using hrows i uid hi

end runs

section oneAdapter

/-- Two slots for a model of one layer with a single target module. -/
def smallPool : PoolConfig where
  maxLorasPerBatch := 2
  maxLorasPerBatch_pos := Nat.two_pos
  maxLoraRank := 1
  numLayers := 1
  targetModules := [oProj]
  hiddenSize := 1
  intermediateSize := 1
  numAttentionHeads := 1
  numKvHeads := 1
  headDim := 1
  originalNumKvHeads := 1
  tpSize := 1

end oneAdapter

end

end SglJax.Lora
