import SglJax.Multimodal.EncoderLanes

/-! A whole prefill: the cached rows, then the modalities one by one. The pool goes on to show
rows of items only. -/
namespace SglJax.Multimodal

open Lora (Mat)
open Foundation

variable {F K : Type}

theorem EmbeddingPool.lastItem_mem {pool : EmbeddingPool K} {itemHash : Int}
    {items : List PackedItem} {item : PackedItem} (h : pool.lastItem itemHash items = some item) :
    item ∈ items := by
  induction items with
  | nil => cases h
  | cons other items ih =>
    rw [lastItem, Option.or_eq_some_iff] at h
    rcases h with h | ⟨-, h⟩
    · exact List.mem_cons_of_mem other (ih h)
    · split at h
      · cases h
        exact List.mem_cons_self
      · cases h

/-- An entry shows the rows of an item with its hash. -/
structure Cached (servable : MultimodalDataItem F → Prop) (width : Nat)
    (output : MultimodalDataItem F → List (List K)) (pool : EmbeddingPool K) : Prop where
  partitioned : pool.Partitioned
  hidden : pool.hidden = width
  entries : ∀ e ∈ pool.entries, ∃ item, servable item ∧ item.hash = e.1 ∧
    pool.Shows e.2 (output item)

variable {servable : MultimodalDataItem F → Prop} {numLanes width numTokens : Nat}
  {output : MultimodalDataItem F → List (List K)} {pool : Option (EmbeddingPool K)}

theorem Cached.of_sameBuffer {pool pool' : EmbeddingPool K}
    (h : Cached servable width output pool) (hbuffer : EmbeddingPool.SameBuffer pool pool')
    (hpart : pool'.Partitioned) (hentries : ∀ e ∈ pool'.entries, e ∈ pool.entries) :
    Cached servable width output pool' where
  partitioned := hpart
  hidden := (congrArg Mat.cols hbuffer.pages).trans h.hidden
  entries := by
    intro e he
    obtain ⟨item, hitem, hhash, hshows⟩ := h.entries e (hentries e he)
    exact ⟨item, hitem, hhash, hbuffer.shows.mpr hshows⟩

theorem Cached.clear {pool : EmbeddingPool K} (h : Cached servable width output pool) :
    Cached servable width output pool.clear where
  partitioned := EmbeddingPool.clear_partitioned h.partitioned
  hidden := h.hidden
  entries := fun e he => by cases he

section CacheItems

variable {packed : Mat K} {tasks : List (ItemTask F)} {offsets : List Nat}

/-- The slice of a task in the packed array. -/
def packedItem (p : Nat × ItemTask F) : PackedItem :=
  ⟨p.2.item.hash, p.2.outputLen, p.2.hasUnmergedTail, p.1⟩

theorem packedItems_tasks (h : offsets.length = tasks.length) :
    EmbeddingPool.packedItems (tasks.map fun task => task.item.hash)
      (tasks.map fun task => (task.outputLen : Int)) (tasks.map ItemTask.hasUnmergedTail)
      (offsets.map Int.ofNat) = (offsets.zip tasks).map packedItem := by
  induction tasks generalizing offsets with
  | nil => simp [EmbeddingPool.packedItems]
  | cons task tasks ih =>
    cases offsets with
    | nil => cases h
    | cons offset offsets =>
      simp only [List.map_cons, EmbeddingPool.packedItems_cons, List.zip_cons_cons,
        ih (Nat.succ.inj h)]
      rfl

/-- The slice has the rows of the item. -/
theorem rows_packedItem (hlaid : LaidOut output packed tasks offsets) {p : Nat × ItemTask F}
    (hp : p ∈ offsets.zip tasks) (hlen : p.2.outputLen = (output p.2.item).length) :
    (packedItem p).rows packed = output p.2.item := by
  apply List.ext_getElem?
  intro k
  rw [packedItem, PackedItem.rows]
  rcases Nat.lt_or_ge k p.2.outputLen with hlt | hge
  · have hget := List.getElem?_eq_getElem (hlen ▸ hlt)
    rw [List.getElem?_take_of_lt hlt, List.getElem?_drop, hlaid.rows p hp k _ hget, hget]
  · rw [List.getElem?_take_eq_none hge, List.getElem?_eq_none (hlen ▸ hge)]

/-- Storing the items of which a later prefill needs rows. -/
theorem cacheUnfinishedItems_spec (hpool : ∀ p ∈ pool, Cached servable width output p)
    (hcols : packed.cols = width) (hlaid : LaidOut output packed tasks offsets)
    (hapart : (offsets.zip tasks).Pairwise OffsetsApart)
    (hsound : ∀ task ∈ tasks, task.Sound servable output numTokens) :
    ∃ pool', cacheUnfinishedItems pool packed tasks offsets = .ok pool' ∧
      ∀ p ∈ pool', Cached servable width output p := by
  cases pool with
  | none => exact ⟨none, rfl, hpool⟩
  | some pool =>
    have hcached := hpool pool rfl
    unfold cacheUnfinishedItems
    dsimp only
    split
    swap
    · exact ⟨some pool, rfl, hpool⟩
    generalize hcall : (⟨tasks.map fun task => task.item.hash, packed,
      tasks.map fun task => (task.outputLen : Int), some (tasks.map ItemTask.hasUnmergedTail),
      some (offsets.map Int.ofNat)⟩ : PackedWrite K) = call
    have hitems : call.items = (offsets.zip tasks).map packedItem := by
      rw [← hcall]
      exact packedItems_tasks hlaid.count
    have haccepted : call.Accepted pool.hidden := by
      subst hcall
      refine ⟨by simp, by simp [PackedWrite.mask], hcols.trans hcached.hidden.symm, ?_, ?_, ?_, ?_⟩
      · intro length hlength
        obtain ⟨task, -, rfl⟩ := List.mem_map.mp hlength
        exact Int.natCast_nonneg _
      · have hsum := hlaid.sum_le
        simp only [PackedWrite.capacity]
        rw [← Nat.cast_le (α := Int), Nat.cast_list_sum, List.map_map] at hsum
        exact hsum
      · simpa [PackedWrite.offsets] using hlaid.count
      · intro q hq
        simp only [PackedWrite.offsets, Option.getD_some, List.zip_map, List.mem_map] at hq
        obtain ⟨p, hp, rfl⟩ := hq
        have hin := hlaid.inside p hp
        simp only [Prod.map, PackedWrite.capacity, Int.ofNat_eq_natCast]
        omega
    have hsliced : EmbeddingPool.Sliced call.packed call.items := by
      apply haccepted.sliced
      intro _
      rw [hitems]
      refine List.pairwise_map.mpr (hapart.imp fun hpq i hi => ?_)
      simp only [packedItem, OffsetsApart] at hpq hi
      omega
    have hpacked : call.packed = packed := by rw [← hcall]
    obtain ⟨results, pool', hrun, hwritten⟩ := EmbeddingPool.writeItems_spec hcached.partitioned
      haccepted.cols hsliced
    have hwrite : pool.writePacked call = .ok (results, pool') := by
      rcases call.writePacked_cases pool with ⟨-, heq⟩ | ⟨hrefused, -⟩
      · rw [heq, hrun]
      · exact absurd haccepted hrefused
    refine ⟨some pool', by rw [hwrite, ok_bind]; rfl, fun p hp => ?_⟩
    cases hp
    refine ⟨hwritten.partitioned, hwritten.hidden.trans hcached.hidden, fun e he => ?_⟩
    rcases hwritten.entries e he with ⟨-, hold, hshows⟩ | ⟨item, hlast, hshows⟩
    · obtain ⟨item, hitem, hhash, hshown⟩ := hcached.entries e hold
      exact ⟨item, hitem, hhash, hshows _ hshown⟩
    · have hmem := EmbeddingPool.lastItem_mem hlast
      rw [hitems] at hmem
      obtain ⟨p, hp, rfl⟩ := List.mem_map.mp hmem
      have htask := hsound p.2 (List.of_mem_zip hp).2
      rw [hpacked, rows_packedItem hlaid hp htask.outputLen] at hshows
      exact ⟨p.2.item, htask.servable, EmbeddingPool.lastItem_hash hlast, hshows⟩

end CacheItems

section Encode

variable [Zero K] {encodeFuncs : EncodeFuncs F K} {lanes : List (LaneTasks F)} {running : Mat K}

/-- A modality that some lane has a task of. -/
theorem encodeModality_spec {modality : Modality}
    (hencodes : Encodes encodeFuncs servable numLanes width output) (hcols : running.cols = width)
    (hrows : running.rows.length = numTokens)
    (hpool : ∀ p ∈ pool, Cached servable width output p) (hcount : lanes.length = numLanes)
    (hne : ∃ lane ∈ lanes, tasksOf lane modality ≠ [])
    (hsound : ∀ lane ∈ lanes, ∀ task ∈ tasksOf lane modality,
      task.Sound servable output numTokens ∧ task.item.modality = modality) :
    ∃ running' pool', encodeModality encodeFuncs lanes (running, pool) modality =
        .ok (running', pool') ∧
      Merged output (lanes.flatMap (tasksOf · modality)) running running' ∧
      ∀ p ∈ pool', Cached servable width output p := by
  generalize hlaneTasks : lanes.map (tasksOf · modality) = laneTasks
  have hmem : ∀ tasks ∈ laneTasks, ∀ task ∈ tasks,
      task.Sound servable output numTokens ∧ task.item.modality = modality := by
    intro tasks htasks
    rw [← hlaneTasks] at htasks
    obtain ⟨lane, hlane, rfl⟩ := List.mem_map.mp htasks
    exact hsound lane hlane
  have hsome : ∃ lane ∈ laneTasks.map (fun tasks => tasks.map ItemTask.item), lane ≠ [] := by
    obtain ⟨lane, hlane, hlane'⟩ := hne
    refine ⟨_, List.mem_map_of_mem (hlaneTasks ▸ List.mem_map_of_mem hlane), ?_⟩
    rwa [Ne, List.map_eq_nil_iff]
  have hlength : (laneTasks.map fun tasks => tasks.map ItemTask.item).length = numLanes := by
    rw [List.length_map, ← hlaneTasks, List.length_map, hcount]
  obtain ⟨encode, packed, capacity, hencode, hpacked, hwidth, hpacks⟩ :=
    hencodes.lanes modality _ hlength hsome fun items hitems item hitem => by
      obtain ⟨tasks, htasks, rfl⟩ := List.mem_map.mp hitems
      obtain ⟨task, htask, rfl⟩ := List.mem_map.mp hitem
      exact ⟨(hmem tasks htasks task htask).1.servable, (hmem tasks htasks task htask).2⟩
  have hpos : 0 < (laneTasks.map fun tasks => tasks.map ItemTask.item).length := by
    obtain ⟨lane, hlane, -⟩ := hsome
    exact List.length_pos_of_mem hlane
  have hcapacity : packed.rows.length /
      (laneTasks.map fun tasks => tasks.map ItemTask.item).length = capacity := by
    rw [hpacks.length, Nat.mul_div_cancel_left _ hpos]
  obtain ⟨offsets, hoffsets, hlaid, hapart⟩ := hpacks.laidOut
    fun tasks htasks task htask => (hmem tasks htasks task htask).1
  have hall : ∀ task ∈ laneTasks.flatten, task.Sound servable output numTokens := by
    intro task htask
    obtain ⟨tasks, htasks, htask⟩ := List.mem_flatten.mp htask
    exact (hmem tasks htasks task htask).1
  obtain ⟨running', hmerge, hmerged⟩ := gatherMerge_spec hlaid (hwidth.trans hcols.symm)
    fun task htask => hrows ▸ (hall task htask).fits
  obtain ⟨pool', hcache, hcached⟩ := cacheUnfinishedItems_spec hpool hwidth hlaid hapart hall
  refine ⟨running', pool', ?_, ?_, hcached⟩
  · simp only [encodeModality, hlaneTasks, hencode, hpacked, ok_bind, hcapacity, hoffsets, hmerge,
      hcache]
    rw [if_neg (by rw [hpacks.length]; simp)]
    rfl
  · rw [List.flatMap_def, hlaneTasks]
    exact hmerged

theorem encodeModalities_spec (hencodes : Encodes encodeFuncs servable numLanes width output)
    (modalities : List Modality) (hcols : running.cols = width)
    (hrows : running.rows.length = numTokens)
    (hpool : ∀ p ∈ pool, Cached servable width output p) (hcount : lanes.length = numLanes)
    (hne : ∀ modality ∈ modalities, ∃ lane ∈ lanes, tasksOf lane modality ≠ [])
    (hsound : ∀ modality, ∀ lane ∈ lanes, ∀ task ∈ tasksOf lane modality,
      task.Sound servable output numTokens ∧ task.item.modality = modality) :
    ∃ running' pool', modalities.foldlM (encodeModality encodeFuncs lanes) (running, pool) =
        .ok (running', pool') ∧
      Merged output (modalities.flatMap fun modality => lanes.flatMap (tasksOf · modality))
        running running' ∧
      ∀ p ∈ pool', Cached servable width output p := by
  induction modalities generalizing running pool with
  | nil => exact ⟨running, pool, rfl, .nil output running, hpool⟩
  | cons modality modalities ih =>
    obtain ⟨between, pool₁, hstep, hmerged, hcached⟩ := encodeModality_spec hencodes hcols hrows
      hpool hcount (hne modality List.mem_cons_self) (hsound modality)
    obtain ⟨running', pool', hrun, hmerged', hcached'⟩ := ih (hmerged.cols.trans hcols)
      (hmerged.length.trans hrows) hcached
      fun m hm => hne m (List.mem_cons_of_mem modality hm)
    refine ⟨running', pool', ?_, ?_, hcached'⟩
    · rw [List.foldlM_cons, hstep, ok_bind, hrun]
    · rw [List.flatMap_cons]
      exact hmerged.trans hmerged'

/-- The tasks that are found in the pool. -/
theorem gatherHits_spec {pool pool' : EmbeddingPool K} {lookups : Lookups F K}
    {tasks : List (ItemTask F)} (hof : lookups.Of tasks pool pool')
    (hcached : Cached servable width output pool) (htell : HashesTell servable output)
    (hcols : running.cols = width)
    (hsound : ∀ task ∈ tasks, task.Sound servable output running.rows.length) :
    ∃ running', gatherFromPool running pool' (lookups.hits.map Prod.fst)
        (lookups.hits.map Prod.snd) = .ok running' ∧
      Merged output (lookups.hits.map Prod.fst) running running' := by
  have hwidth : pool'.hidden = running.cols := by
    rw [hcols, ← hcached.hidden]
    exact congrArg Mat.cols hof.buffer.pages
  apply gatherFromPool_spec hwidth (by simp)
  intro p hp
  obtain ⟨hit, hhit, rfl⟩ : ∃ hit ∈ lookups.hits, p = (hit.2, hit.1) := by
    obtain ⟨i, hi⟩ := List.mem_iff_getElem?.mp hp
    obtain ⟨hentry, htask⟩ := List.getElem?_zip_eq_some.mp hi
    rw [List.getElem?_map] at hentry htask
    obtain ⟨hit, hget, hfst⟩ := Option.map_eq_some_iff.mp hentry
    rw [hget, Option.map_some] at htask
    exact ⟨hit, List.mem_of_getElem? hget, Prod.ext hfst.symm (Option.some.inj htask).symm⟩
  have htask := hsound hit.1 ((hof.mem hit.1).mpr (.inl (List.mem_map_of_mem hhit)))
  obtain ⟨item, hitem, hhash, hshows⟩ := hcached.entries _ (hof.hits hit hhit)
  rw [htell item hit.1.item hitem htask.servable hhash] at hshows
  exact ⟨htask.fits, hof.buffer.shows.mpr hshows, htask.within⟩

/-- The first half of a prefill: what the lookups find is laid over the tokens. -/
theorem gatherCached_spec (htell : HashesTell servable output) (tasks : List (ItemTask F))
    (hcols : running.cols = width) (hpool : ∀ p ∈ pool, Cached servable width output p)
    (hsound : ∀ task ∈ tasks, task.Sound servable output running.rows.length) :
    ∃ lookups running', lookupTasks tasks pool = lookups ∧
      gatherCached running lookups = .ok running' ∧
      Merged output (lookups.hits.map Prod.fst) running running' ∧
      (∀ p ∈ lookups.pool, Cached servable width output p) ∧
      ∀ task, task ∈ tasks ↔ task ∈ lookups.hits.map Prod.fst ∨ task ∈ lookups.expired := by
  cases pool with
  | none =>
    refine ⟨⟨[], tasks, none⟩, running, lookupTasks_none tasks, rfl, .nil output running, ?_, ?_⟩
    · intro p hp
      cases hp
    · intro task
      simp
  | some pool =>
    have hcached := hpool pool rfl
    obtain ⟨pool', hof⟩ := lookupTasks_some tasks hcached.partitioned
    have hcached' : ∀ p ∈ (lookupTasks tasks (some pool)).pool,
        Cached servable width output p := by
      intro p hp
      rw [hof.pool_eq] at hp
      cases hp
      exact hcached.of_sameBuffer hof.buffer hof.partitioned fun e he => hof.entries.mem_iff.mp he
    by_cases hhits : (lookupTasks tasks (some pool)).hits = []
    · refine ⟨_, running, rfl, ?_, ?_, hcached', hof.mem⟩
      · rw [gatherCached, hof.pool_eq]
        exact if_neg (not_not_intro hhits)
      · rw [hhits]
        exact .nil output running
    · obtain ⟨running', hrun, hmerged⟩ := gatherHits_spec hof hcached htell hcols hsound
      refine ⟨_, running', rfl, ?_, hmerged, hcached', hof.mem⟩
      rw [gatherCached, hof.pool_eq]
      exact (if_pos hhits).trans hrun

theorem mem_modalities {modality : Modality} :
    modality ∈ (lanes.flatMap fun lane => lane.map Prod.fst).eraseDups ↔
      ∃ lane ∈ lanes, modality ∈ lane.map Prod.fst := by
  rw [List.mem_eraseDups, List.mem_flatMap]

/-- The tasks of a batch lie over the tokens, from wherever their rows come. -/
theorem mergeBatch_spec (hencodes : Encodes encodeFuncs servable numLanes width output)
    (htell : HashesTell servable output) {batch : MultimodalBatch F} {tasks : List (ItemTask F)}
    {cached : ItemTask F → Prop} (hholds : batch.Holds numLanes tasks cached)
    (hcols : running.cols = width)
    (hpool : ∀ p ∈ pool, Cached servable width output p)
    (hsound : ∀ task ∈ tasks, task.Sound servable output running.rows.length) :
    ∃ running' pool', mergeBatch encodeFuncs batch running pool = .ok (running', pool') ∧
      Merged output tasks running running' ∧ ∀ p ∈ pool', Cached servable width output p := by
  obtain ⟨lookups, between, hlookups, hgather, hhits, hcached, hmem⟩ :=
    gatherCached_spec htell batch.cachedTasks hcols hpool fun task ht =>
      hsound task ((hholds.mem_cached task).mp ht).1
  have hlanes := hholds.lanes.rebalance lookups.expired
  generalize hrebalance : rebalance lookups.expired batch.perLaneTasks = lanes at hlanes
  have hsounds : ∀ modality, ∀ lane ∈ lanes, ∀ task ∈ tasksOf lane modality,
      task.Sound servable output between.rows.length ∧ task.item.modality = modality := by
    intro modality lane hlane task htask
    have hmodality := hlanes.modality lane hlane modality task htask
    rw [hhits.length]
    refine ⟨hsound task ?_, hmodality⟩
    rcases (hlanes.mem task).mp ⟨lane, hlane, hmodality ▸ htask⟩ with h | h
    · exact h.1
    · exact ((hholds.mem_cached task).mp ((hmem task).mpr (.inr h))).1
  obtain ⟨running', pool', hrun, hmerged, hcached'⟩ := encodeModalities_spec hencodes
    (lanes.flatMap fun lane => lane.map Prod.fst).eraseDups (hhits.cols.trans hcols) rfl hcached
    hlanes.count (fun modality hmodality => by
      obtain ⟨lane, hlane, hkey⟩ := mem_modalities.mp hmodality
      exact hlanes.occupied lane hlane modality hkey) hsounds
  refine ⟨running', pool', ?_, (hhits.trans hmerged).congr fun task => ?_, hcached'⟩
  · simp only [mergeBatch, hlookups, hgather, ok_bind, hrebalance, hrun]
  · have hencoded : task ∈ ((lanes.flatMap fun lane => lane.map Prod.fst).eraseDups.flatMap
        fun modality => lanes.flatMap (tasksOf · modality)) ↔
        (task ∈ tasks ∧ ¬ cached task) ∨ task ∈ lookups.expired := by
      rw [← hlanes.mem, List.mem_flatMap]
      constructor
      · rintro ⟨modality, -, htask⟩
        obtain ⟨lane, hlane, htask⟩ := List.mem_flatMap.mp htask
        have heq := hlanes.modality lane hlane modality task htask
        exact ⟨lane, hlane, heq ▸ htask⟩
      · rintro ⟨lane, hlane, htask⟩
        refine ⟨task.item.modality, mem_modalities.mpr ⟨lane, hlane, ?_⟩,
          List.mem_flatMap.mpr ⟨lane, hlane, htask⟩⟩
        by_contra hkey
        rw [tasksOf_eq_nil hkey] at htask
        cases htask
    have hcachedTask := hholds.mem_cached task
    rw [hmem] at hcachedTask
    rw [List.mem_append, hencoded]
    tauto

end Encode

end SglJax.Multimodal
