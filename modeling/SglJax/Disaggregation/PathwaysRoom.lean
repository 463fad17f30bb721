import SglJax.Disaggregation.PathwaysMigration

/-! Every item that passes the capacity gate of the pathways scheduler gets its pages, and
its slots as long as it goes to a slice that has them. -/
namespace SglJax.Disaggregation.Pathways

open MemCache

/-! ### Requests in flight -/

section Inflight

variable {inflight : List String} {reqs : List Req} {rid : String}

theorem mem_foldl_track :
    rid ∈ reqs.foldl Scheduler.trackInflight inflight ↔ rid ∈ inflight ∨ rid ∈ reqs.map Req.rid := by
  induction reqs generalizing inflight with
  | nil => simp
  | cons req rest ih =>
    rw [List.foldl_cons, ih, List.map_cons, List.mem_cons]
    unfold Scheduler.trackInflight
    split
    · rename_i hmem
      constructor
      · rintro (h | h)
        · exact .inl h
        · exact .inr (.inr h)
      · rintro (h | rfl | h)
        · exact .inl h
        · exact .inl hmem
        · exact .inr h
    · rw [List.mem_append, List.mem_singleton, or_assoc]

theorem nodup_foldl_track (h : inflight.Nodup) :
    (reqs.foldl Scheduler.trackInflight inflight).Nodup := by
  induction reqs generalizing inflight with
  | nil => exact h
  | cons req rest ih =>
    apply ih
    unfold Scheduler.trackInflight
    split
    · exact h
    · rename_i hnot
      rw [List.nodup_append]
      refine ⟨h, List.nodup_singleton _, fun a ha b hb heq => ?_⟩
      rw [List.mem_singleton.mp hb] at heq
      exact hnot (heq ▸ ha)

theorem mem_foldl_untrack :
    rid ∈ reqs.foldl Scheduler.untrackInflight inflight ↔
      rid ∈ inflight ∧ rid ∉ reqs.map Req.rid := by
  induction reqs generalizing inflight with
  | nil => simp
  | cons req rest ih =>
    rw [List.foldl_cons, ih, List.map_cons, List.mem_cons, not_or]
    unfold Scheduler.untrackInflight
    rw [List.mem_filter]
    simp only [ne_eq, decide_not, Bool.not_eq_eq_eq_not, Bool.not_true, decide_eq_false_iff_not]
    rw [and_assoc]

theorem nodup_foldl_untrack (h : inflight.Nodup) :
    (reqs.foldl Scheduler.untrackInflight inflight).Nodup := by
  induction reqs generalizing inflight with
  | nil => exact h
  | cons req rest ih => exact ih (h.filter _)

/-- New names are all that the registry grows by. -/
theorem length_foldl_track_le {fresh : List Req} (h : inflight.Nodup)
    (hknown : ∀ req ∈ reqs, req.rid ∈ inflight ∨ req ∈ fresh) :
    (reqs.foldl Scheduler.trackInflight inflight).length ≤ inflight.length + fresh.length := by
  have hsub : reqs.foldl Scheduler.trackInflight inflight ⊆ inflight ++ fresh.map Req.rid := by
    intro rid hrid
    rw [List.mem_append]
    rcases mem_foldl_track.mp hrid with hin | hreqs
    · exact .inl hin
    · obtain ⟨req, hreq, rfl⟩ := List.mem_map.mp hreqs
      rcases hknown req hreq with hin | hfresh
      · exact .inl hin
      · exact .inr (List.mem_map_of_mem hfresh)
  have hle := (List.subperm_of_subset (nodup_foldl_track h) hsub).length_le
  rwa [List.length_append, List.length_map] at hle

theorem length_foldl_untrack (h : inflight.Nodup) (hreqs : (reqs.map Req.rid).Nodup)
    (hknown : ∀ rid ∈ reqs.map Req.rid, rid ∈ inflight) :
    (reqs.foldl Scheduler.untrackInflight inflight).length + reqs.length ≤ inflight.length := by
  have hnodup : (reqs.foldl Scheduler.untrackInflight inflight ++ reqs.map Req.rid).Nodup := by
    rw [List.nodup_append]
    refine ⟨nodup_foldl_untrack h, hreqs, fun a ha b hb heq => ?_⟩
    exact (mem_foldl_untrack.mp ha).2 (heq ▸ hb)
  have hsub : reqs.foldl Scheduler.untrackInflight inflight ++ reqs.map Req.rid ⊆ inflight := by
    intro rid hrid
    rcases List.mem_append.mp hrid with hleft | hdone
    · exact (mem_foldl_untrack.mp hleft).1
    · exact hknown rid hdone
  have hle := (List.subperm_of_subset hnodup hsub).length_le
  rwa [List.length_append, List.length_map] at hle

/-- A list has at most as many requests as the limit of all ranks. -/
theorem length_le_of_ranks {limit : Nat} (n : Nat) (hranks : ∀ req ∈ reqs, req.dpRank < n)
    (hlimit : ∀ rank, (reqs.filter fun req => req.dpRank = rank).length ≤ limit) :
    reqs.length ≤ n * limit := by
  induction n generalizing reqs with
  | zero =>
    cases reqs with
    | nil => exact Nat.zero_le _
    | cons req rest => exact absurd (hranks req List.mem_cons_self) (Nat.not_lt_zero _)
  | succ n ih =>
    have hsplit := List.length_eq_length_filter_add (l := reqs) (fun req => decide (req.dpRank = n))
    have hrest : (reqs.filter fun req => !decide (req.dpRank = n)).length ≤ n * limit := by
      apply ih
      · intro req hreq
        obtain ⟨hmem, hne⟩ := List.mem_filter.mp hreq
        have hlt := hranks req hmem
        simp only [Bool.not_eq_eq_eq_not, Bool.not_true, decide_eq_false_iff_not] at hne
        omega
      · intro rank
        refine Nat.le_trans ?_ (hlimit rank)
        rw [List.filter_filter]
        exact (List.monotone_filter_right reqs fun req h =>
          (Bool.and_eq_true_iff.mp h).1).length_le
    have hlast := hlimit n
    rw [Nat.succ_mul]
    omega

end Inflight

/-! ### Migration -/

section Migration

variable (settings : Settings)

/-- A migrated request gets the first free slot, when there is one. -/
theorem migrateOne_eq (slice : DecodeSlice) (req : Req) :
    Scheduler.migrateOne settings slice req =
      match slice.allocator.alloc (req.numPages * settings.pageSize) req.dpRank with
      | .error e => .error (.alloc e)
      | .ok (_, none) => .error .dPoolOom
      | .ok (allocator, some _) =>
        .ok ({ slice with
            allocator := allocator
            reqToTokenPool :=
              { slice.reqToTokenPool with freeSlots := slice.reqToTokenPool.freeSlots.tail } },
          ⟨req, slice.reqToTokenPool.freeSlots.head?⟩) := by
  unfold Scheduler.migrateOne
  rw [ReqToTokenPool.alloc_new]
  cases slice.reqToTokenPool with
  | mk size freeSlots => cases freeSlots <;> rfl

theorem migrateOne_cases {slice slice' : DecodeSlice} {req : Req} {r : RunningReq}
    (h : Scheduler.migrateOne settings slice req = .ok (slice', r)) :
    ∃ allocator out,
      slice.allocator.alloc (req.numPages * settings.pageSize) req.dpRank =
        .ok (allocator, some out) ∧
      slice' = { slice with
        allocator := allocator
        reqToTokenPool :=
          { slice.reqToTokenPool with freeSlots := slice.reqToTokenPool.freeSlots.tail } } ∧
      r = ⟨req, slice.reqToTokenPool.freeSlots.head?⟩ := by
  rw [migrateOne_eq] at h
  split at h
  · cases h
  · cases h
  · rename_i allocator out halloc
    cases h
    exact ⟨allocator, out, halloc, rfl, rfl⟩

theorem migrateAll_cons {slice slice' : DecodeSlice} {req : Req} {rest : List Req}
    {migrated : List RunningReq}
    (h : Scheduler.migrateAll settings slice (req :: rest) = .ok (slice', migrated)) :
    ∃ next r later, Scheduler.migrateOne settings slice req = .ok (next, r) ∧
      Scheduler.migrateAll settings next rest = .ok (slice', later) ∧ migrated = r :: later := by
  unfold Scheduler.migrateAll at h
  split at h
  · cases h
  · rename_i next r hone
    split at h
    · cases h
    · rename_i last later hall
      cases h
      exact ⟨next, r, later, hone, hall, rfl⟩

/-- What migrating the requests does to a slice. -/
structure Migrates (slice slice' : DecodeSlice) (reqs : List Req) (migrated : List RunningReq) :
    Prop where
  wellFormed : slice.allocator.WellFormed → slice'.allocator.WellFormed
  pageSize : slice'.allocator.pageSize = slice.allocator.pageSize
  running : slice'.running = slice.running
  reqs : migrated.map RunningReq.req = reqs
  slots : slice'.reqToTokenPool.freeSlots.length +
    (migrated.filter fun r => r.reqPoolIdx.isSome).length =
      slice.reqToTokenPool.freeSlots.length

theorem migrateAll_migrates {reqs : List Req} {slice slice' : DecodeSlice}
    {migrated : List RunningReq}
    (h : Scheduler.migrateAll settings slice reqs = .ok (slice', migrated)) :
    Migrates slice slice' reqs migrated := by
  induction reqs generalizing slice migrated with
  | nil =>
    cases h
    exact ⟨id, rfl, rfl, rfl, rfl⟩
  | cons req rest ih =>
    obtain ⟨next, r, later, hone, hall, rfl⟩ := migrateAll_cons settings h
    obtain ⟨allocator, out, halloc, rfl, rfl⟩ := migrateOne_cases settings hone
    have hkeeps := (KvAllocator.served_alloc halloc).keeps
    have hrest := ih hall
    constructor
    · exact fun hwf => hrest.wellFormed (hwf.keeps hkeeps)
    · exact hrest.pageSize.trans hkeeps.pageSize
    · exact hrest.running
    · rw [List.map_cons, hrest.reqs]
    · have hslots := hrest.slots
      cases hfree : slice.reqToTokenPool.freeSlots with
      | nil => simpa [hfree] using hslots
      | cons idx free =>
        simp only [hfree, List.tail_cons] at hslots
        simp only [List.head?_cons, Option.isSome_some, List.filter_cons_of_pos, List.length_cons]
        omega

end Migration

/-! ### Slots of a slice -/

section Slots

variable {settings : Settings}

/-- Each slot of a slice is free or taken by a request of its batch. -/
structure DecodeSlice.Kept (settings : Settings) (slice : DecodeSlice) : Prop where
  wellFormed : slice.allocator.WellFormed
  pageSize : slice.allocator.pageSize = settings.pageSize
  slots : slice.reqToTokenPool.freeSlots.length + slice.taken = settings.reqSlots

theorem Migrates.kept {slice slice' : DecodeSlice} {reqs : List Req} {migrated : List RunningReq}
    (h : Migrates slice slice' reqs migrated) (hkept : slice.Kept settings) :
    DecodeSlice.Kept settings { slice' with running := slice'.running ++ migrated } where
  wellFormed := h.wellFormed hkept.wellFormed
  pageSize := h.pageSize.trans hkept.pageSize
  slots := by
    have hbefore := hkept.slots
    have hmoved := h.slots
    unfold DecodeSlice.taken at hbefore ⊢
    dsimp only
    rw [h.running, List.filter_append, List.length_append]
    omega

theorem free_cases {pool pool' : ReqToTokenPool} {reqPoolIdx : Option Nat}
    (h : pool.free reqPoolIdx = .ok pool') :
    reqPoolIdx.isSome ∧ pool'.freeSlots.length = pool.freeSlots.length + 1 := by
  cases reqPoolIdx with
  | none => cases h
  | some idx =>
    cases h
    exact ⟨rfl, List.length_append⟩

theorem DecodeStep.kept {slice slice' : DecodeSlice} (h : DecodeStep slice slice')
    (hkept : slice.Kept settings) : slice'.Kept settings := by
  have hslots := hkept.slots
  unfold DecodeSlice.taken at hslots
  cases h with
  | pages allocator hwf hpages => exact ⟨hwf, hpages.trans hkept.pageSize, hkept.slots⟩
  | filter =>
    refine ⟨hkept.wellFormed, hkept.pageSize, ?_⟩
    unfold DecodeSlice.taken
    rw [List.filter_filter]
    simpa using hslots
  | finish hrunning hfree =>
    obtain ⟨hsome, hlength⟩ := free_cases hfree
    refine ⟨hkept.wellFormed, hkept.pageSize, ?_⟩
    rw [hrunning] at hslots
    unfold DecodeSlice.taken
    simp only [List.filter_append, List.filter_cons, hsome, Option.isSome_none, if_true,
      List.length_append, List.length_cons, Bool.false_eq_true, if_false] at hslots ⊢
    omega
  | retract hrunning hfree =>
    obtain ⟨hsome, hlength⟩ := free_cases hfree
    refine ⟨hkept.wellFormed, hkept.pageSize, ?_⟩
    rw [hrunning] at hslots
    unfold DecodeSlice.taken
    simp only [List.filter_append, List.filter_cons, hsome, if_true, List.length_append,
      List.length_cons] at hslots ⊢
    omega

theorem DecodeStep.running_le {slice slice' : DecodeSlice} (h : DecodeStep slice slice') :
    slice'.running.length ≤ slice.running.length := by
  cases h with
  | pages => exact le_rfl
  | filter => exact List.length_filter_le _ _
  | finish hrunning _ => simp [hrunning]
  | retract hrunning _ => simp [hrunning]

variable {s s' popped : Scheduler} {item : ReadyItem} {migrated : List RunningReq}

theorem popReady_cases (h : s.popReady = some (item, popped)) :
    s.deferred ++ s.readyQ = item :: (popped.deferred ++ popped.readyQ) ∧
      popped = { s with deferred := popped.deferred, readyQ := popped.readyQ } := by
  unfold Scheduler.popReady at h
  split at h
  · rename_i item' rest queue hdeferred
    cases h
    exact ⟨by rw [hdeferred]; rfl, rfl⟩
  · rename_i item' rest hdeferred hready
    cases h
    exact ⟨by rw [hdeferred, hready]; rfl, rfl⟩
  · cases h

/-- Either the item waits on, or its requests move. -/
theorem drainReady_cases (h : s.drainReady settings item = .ok (s', migrated)) :
    (s.isDeferred settings item = true ∧ migrated = [] ∧
        s' = { s with deferred := s.deferred ++ [item] }) ∨
      ∃ slice, Scheduler.migrateAll settings (s.slices item.dIdx) item.batch.done =
          .ok (slice, migrated) ∧
        s' = { s with
          inflight := item.batch.done.foldl Scheduler.untrackInflight s.inflight
          slices := Function.update s.slices item.dIdx
            { slice with running := slice.running ++ migrated } } := by
  unfold Scheduler.drainReady at h
  split at h
  · rename_i hdefer
    cases h
    exact .inl ⟨hdefer, rfl, rfl⟩
  · split at h
    · cases h
    · rename_i slice moved hall
      cases h
      exact .inr ⟨slice, hall, rfl⟩

theorem prefill_cases {pIdx : Nat} (h : s.prefill settings pIdx = some s') :
    ∃ batch rest, Scheduler.popQueue pIdx s.prefillQ = some (batch, rest) ∧
      s' = ({ s with prefillQ := rest } : Scheduler).route settings batch := by
  unfold Scheduler.prefill at h
  split at h
  · obtain ⟨moved, hpop, rfl⟩ := Option.map_eq_some_iff.mp h
    exact ⟨moved.1, moved.2, hpop, rfl⟩
  · cases h

/-- The batch goes to the end of the ready queue, for one of the slices. -/
theorem route_cases (settings : Settings) (s : Scheduler) (batch : PrefillBatch) :
    ∃ dIdx next, dIdx < settings.nDecode ∧
      s.route settings batch =
        { s with readyQ := s.readyQ ++ [⟨dIdx, batch⟩], nextDPerDp := next } := by
  unfold Scheduler.route
  split
  · exact ⟨0, s.nextDPerDp, settings.nDecode_pos, rfl⟩
  · exact ⟨_, _, Nat.mod_lt _ settings.nDecode_pos, rfl⟩

theorem kept_update {d : Nat} {slice : DecodeSlice} (h : ∀ d, (s.slices d).Kept settings)
    (hslice : slice.Kept settings) (d' : Nat) :
    (Function.update s.slices d slice d').Kept settings := by
  by_cases hd : d' = d
  · rw [hd, Function.update_self]
    exact hslice
  · rw [Function.update_of_ne hd]
    exact h d'

theorem Step.kept {act : Act} (h : Step settings act s s')
    (hkept : ∀ d, (s.slices d).Kept settings) (d : Nat) : (s'.slices d).Kept settings := by
  cases h with
  | push => exact hkept d
  | prefill pIdx heq =>
    obtain ⟨batch, rest, _, rfl⟩ := prefill_cases heq
    obtain ⟨dIdx, next, _, hroute⟩ :=
      route_cases settings ({ s with prefillQ := rest } : Scheduler) batch
    rw [hroute]
    exact hkept d
  | drain hpop heq =>
    obtain ⟨_, hpopped⟩ := popReady_cases hpop
    rw [hpopped] at heq
    rcases drainReady_cases heq with ⟨_, _, rfl⟩ | ⟨slice, hall, rfl⟩
    · exact hkept d
    · exact kept_update hkept ((migrateAll_migrates settings hall).kept (hkept _)) d
  | decode dIdx hstep => exact kept_update hkept (hstep.kept (hkept dIdx)) d

theorem Reaches.kept {ok : Scheduler → Act → Prop} (h : Reaches settings ok s) :
    ∀ d, (s.slices d).Kept settings := by
  induction h with
  | init =>
    intro d
    refine ⟨settings.wellFormed d, settings.samePages d, ?_⟩
    simp [Scheduler.init, ReqToTokenPool.init, DecodeSlice.taken]
  | step _ _ hstep ih => exact hstep.kept ih

end Slots

/-! ### Requests of all slices -/

section Count

variable {settings : Settings} {s s' popped : Scheduler} {item : ReadyItem}
  {migrated : List RunningReq}

/-- The requests on their way to a decode slice; a chunked one is counted at its owner. -/
def Scheduler.carried (s : Scheduler) : List Req :=
  s.chunkedReqs.map ChunkedReq.req ++ (s.prefillQ.flatMap PrefillBatch.done ++
    (s.deferred ++ s.readyQ).flatMap fun item => item.batch.done)

/-- The requests in flight and the running ones stay within the limit of all slices. -/
structure Counted (settings : Settings) (s : Scheduler) : Prop where
  names : (s.carried.map Req.rid).Nodup
  known : ∀ req ∈ s.carried, req.rid ∈ s.inflight
  inflight : s.inflight.Nodup
  total : s.inflight.length + s.totalDRunning settings ≤
    settings.nDecode * (settings.dpSize * settings.perDpMaxRunningRequests)
  targets : ∀ item ∈ s.deferred ++ s.readyQ, item.dIdx < settings.nDecode

theorem Counted.init (settings : Settings) : Counted settings (.init settings) where
  names := List.nodup_nil
  known := fun _ hreq => absurd hreq List.not_mem_nil
  inflight := List.nodup_nil
  total := by
    have hrunning : (Scheduler.init settings).totalDRunning settings = 0 :=
      Finset.sum_eq_zero fun _ _ => rfl
    rw [hrunning]
    exact Nat.zero_le _
  targets := fun _ hitem => absurd hitem List.not_mem_nil

/-- A step that only moves requests on keeps the count. -/
theorem Counted.of_perm (h : Counted settings s) (hcarried : s'.carried.Perm s.carried)
    (hinflight : s'.inflight = s.inflight)
    (hrunning : s'.totalDRunning settings ≤ s.totalDRunning settings)
    (htargets : ∀ item ∈ s'.deferred ++ s'.readyQ, item.dIdx < settings.nDecode) :
    Counted settings s' where
  names := ((hcarried.map Req.rid).nodup_iff).mpr h.names
  known := fun req hreq => hinflight ▸ h.known req (hcarried.mem_iff.mp hreq)
  inflight := hinflight ▸ h.inflight
  total := by
    have := h.total
    rw [hinflight]
    omega
  targets := htargets

theorem Counted.carried_le (h : Counted settings s) : s.carried.length ≤ s.inflight.length := by
  have hsub : s.carried.map Req.rid ⊆ s.inflight := by
    intro rid hrid
    obtain ⟨req, hreq, rfl⟩ := List.mem_map.mp hrid
    exact h.known req hreq
  have hle := (List.subperm_of_subset h.names hsub).length_le
  rwa [List.length_map] at hle

theorem carried_popReady (h : s.popReady = some (item, popped)) :
    s.carried.Perm (item.batch.done ++ popped.carried) := by
  obtain ⟨hqueue, hpopped⟩ := popReady_cases h
  unfold Scheduler.carried
  rw [hqueue, List.flatMap_cons]
  have hchunked : popped.chunkedReqs = s.chunkedReqs := by rw [hpopped]
  have hprefill : popped.prefillQ = s.prefillQ := by rw [hpopped]
  rw [hchunked, hprefill, List.perm_iff_count]
  intro req
  simp only [List.count_append]
  omega

/-- With as many slots as all slices may run requests, a slice never runs out of them. -/
theorem Counted.hasSlots (h : Counted settings s)
    (hlimit : settings.nDecode * (settings.dpSize * settings.perDpMaxRunningRequests) ≤
      settings.reqSlots) (act : Act) : HasSlots settings s act := by
  cases act with
  | push fresh => trivial
  | prefill => trivial
  | decode => trivial
  | drain =>
    intro item popped hpop _
    obtain ⟨hqueue, _⟩ := popReady_cases hpop
    have htarget : item.dIdx < settings.nDecode :=
      h.targets item (hqueue ▸ List.mem_cons_self)
    have hrunning : (s.slices item.dIdx).running.length ≤ s.totalDRunning settings :=
      Finset.single_le_sum (f := fun d => (s.slices d).running.length)
        (fun _ _ => Nat.zero_le _) (Finset.mem_range.mpr htarget)
    have htaken : (s.slices item.dIdx).taken ≤ (s.slices item.dIdx).running.length :=
      List.length_filter_le _ _
    have hcarried := (carried_popReady hpop).length_eq
    rw [List.length_append] at hcarried
    have hinflight := h.carried_le
    have htotal := h.total
    omega

/-! #### Admission -/

theorem newRequestLimit_le (s : Scheduler)
    (htotal : s.inflight.length + s.totalDRunning settings ≤
      settings.nDecode * (settings.dpSize * settings.perDpMaxRunningRequests)) :
    settings.dpSize * s.newRequestLimit settings +
        (s.inflight.length + s.totalDRunning settings) ≤
      settings.nDecode * (settings.dpSize * settings.perDpMaxRunningRequests) := by
  have hpos := settings.dpSize_pos
  unfold Scheduler.newRequestLimit
  generalize s.inflight.length + s.totalDRunning settings = used at htotal ⊢
  generalize settings.nDecode = n at htotal ⊢
  generalize settings.dpSize = dp at hpos htotal ⊢
  generalize settings.perDpMaxRunningRequests = most at htotal ⊢
  have hshare : n * (dp * most) = dp * (most * n) := by ring
  have hceil : used ≤ dp * ((used + dp - 1) / dp) := by
    have := Nat.lt_mul_div_succ (used + dp - 1) hpos
    rw [Nat.mul_add, Nat.mul_one] at this
    omega
  rw [hshare] at htotal ⊢
  rw [Nat.mul_sub]
  omega

theorem carried_push (s : Scheduler) {batch : PrefillBatch} {fresh : List Req}
    {continued kept : List ChunkedReq} (howners : s.chunkedReqs.Perm (continued ++ kept))
    (hbatch : (batch.done ++ batch.mid).Perm (fresh ++ continued.map ChunkedReq.req)) :
    (s.push batch kept).carried.Perm (fresh ++ s.carried) := by
  have howned := howners.map ChunkedReq.req
  have hmid : (batch.mid.map (ChunkedReq.mk batch.pIdx)).map ChunkedReq.req = batch.mid := by
    rw [List.map_map]
    exact List.map_id _
  unfold Scheduler.carried Scheduler.push
  dsimp only
  rw [List.map_append, hmid, List.flatMap_append, List.flatMap_singleton]
  rw [List.map_append] at howned
  rw [List.perm_iff_count] at hbatch howned ⊢
  intro req
  have hb := hbatch req
  have ho := howned req
  simp only [List.count_append] at hb ho ⊢
  omega

theorem Counted.push (h : Counted settings s) {batch : PrefillBatch} {fresh : List Req}
    {continued kept : List ChunkedReq} (howners : s.chunkedReqs.Perm (continued ++ kept))
    (hbatch : (batch.done ++ batch.mid).Perm (fresh ++ continued.map ChunkedReq.req))
    (hranks : ∀ req ∈ fresh, req.dpRank < settings.dpSize)
    (hlimit : ∀ rank, (fresh.filter fun req => req.dpRank = rank).length ≤
      s.newRequestLimit settings)
    (hnames : (fresh.map Req.rid).Nodup) (hnew : ∀ req ∈ fresh, req.rid ∉ s.inflight) :
    Counted settings (s.push batch kept) := by
  have hcarried := carried_push s howners hbatch
  have hcontinued : ∀ owner ∈ continued, owner.req ∈ s.carried := by
    intro owner howner
    refine List.mem_append_left _ (List.mem_map_of_mem ?_)
    exact howners.mem_iff.mpr (List.mem_append_left _ howner)
  constructor
  · rw [((hcarried.map Req.rid).nodup_iff), List.map_append, List.nodup_append]
    refine ⟨hnames, h.names, ?_⟩
    intro a ha b hb heq
    obtain ⟨req, hreq, rfl⟩ := List.mem_map.mp ha
    obtain ⟨old, hold, rfl⟩ := List.mem_map.mp hb
    exact hnew req hreq (heq ▸ h.known old hold)
  · intro req hreq
    show req.rid ∈ (batch.done ++ batch.mid).foldl Scheduler.trackInflight s.inflight
    rw [mem_foldl_track]
    rcases List.mem_append.mp (hcarried.mem_iff.mp hreq) with hfresh | hold
    · exact .inr (List.mem_map_of_mem (hbatch.mem_iff.mpr (List.mem_append_left _ hfresh)))
    · exact .inl (h.known req hold)
  · exact nodup_foldl_track h.inflight
  · have hgrow : ((batch.done ++ batch.mid).foldl Scheduler.trackInflight s.inflight).length ≤
        s.inflight.length + fresh.length := by
      apply length_foldl_track_le h.inflight
      intro req hreq
      rcases List.mem_append.mp (hbatch.mem_iff.mp hreq) with hfresh | hold
      · exact .inr hfresh
      · obtain ⟨owner, howner, rfl⟩ := List.mem_map.mp hold
        exact .inl (h.known _ (hcontinued owner howner))
    have hfresh := length_le_of_ranks settings.dpSize hranks hlimit
    have hbound := newRequestLimit_le s h.total
    show ((batch.done ++ batch.mid).foldl Scheduler.trackInflight s.inflight).length +
      s.totalDRunning settings ≤ _
    omega
  · exact h.targets

/-! #### Steps -/

theorem popQueue_perm {pIdx : Nat} {queue rest : List PrefillBatch} {batch : PrefillBatch}
    (h : Scheduler.popQueue pIdx queue = some (batch, rest)) : queue.Perm (batch :: rest) := by
  induction queue generalizing rest with
  | nil => cases h
  | cons first later ih =>
    unfold Scheduler.popQueue at h
    split at h
    · cases h
      exact List.Perm.refl _
    · obtain ⟨popped, hpop, heq⟩ := Option.map_eq_some_iff.mp h
      cases heq
      exact ((ih hpop).cons first).trans (List.Perm.swap _ _ _)

theorem totalDRunning_le (h : ∀ d, (s'.slices d).running.length ≤ (s.slices d).running.length) :
    s'.totalDRunning settings ≤ s.totalDRunning settings :=
  Finset.sum_le_sum fun d _ => h d

theorem totalDRunning_update {slice : DecodeSlice} {d n : Nat} (hd : d < settings.nDecode)
    (hslices : s'.slices = Function.update s.slices d slice)
    (hlength : slice.running.length = (s.slices d).running.length + n) :
    s'.totalDRunning settings = s.totalDRunning settings + n := by
  have hone : ∀ d', (s'.slices d').running.length =
      (s.slices d').running.length + if d' = d then n else 0 := by
    intro d'
    rw [hslices]
    split
    · rename_i heq
      rw [heq, Function.update_self, hlength]
    · rename_i hne
      rw [Function.update_of_ne hne, Nat.add_zero]
  unfold Scheduler.totalDRunning
  rw [Finset.sum_congr rfl fun d' _ => hone d', Finset.sum_add_distrib, Finset.sum_ite_eq',
    if_pos (Finset.mem_range.mpr hd)]

theorem Counted.prefill {pIdx : Nat} (h : Counted settings s)
    (heq : s.prefill settings pIdx = some s') : Counted settings s' := by
  obtain ⟨batch, rest, hpop, rfl⟩ := prefill_cases heq
  obtain ⟨dIdx, next, hd, hroute⟩ :=
    route_cases settings ({ s with prefillQ := rest } : Scheduler) batch
  rw [hroute]
  apply h.of_perm
  · have hqueue := (popQueue_perm hpop).flatMap_right PrefillBatch.done
    rw [List.flatMap_cons] at hqueue
    unfold Scheduler.carried
    rw [List.perm_iff_count] at hqueue ⊢
    intro req
    have hcount := hqueue req
    simp only [List.count_append, List.flatMap_append, List.flatMap_singleton] at hcount ⊢
    omega
  · rfl
  · exact totalDRunning_le fun _ => le_rfl
  · intro item hitem
    rcases List.mem_append.mp hitem with hold | hready
    · exact h.targets item (List.mem_append_left _ hold)
    · rcases List.mem_append.mp hready with hold | hlast
      · exact h.targets item (List.mem_append_right _ hold)
      · rw [List.mem_singleton.mp hlast]
        exact hd

theorem Counted.drain (h : Counted settings s) (hpop : s.popReady = some (item, popped))
    (heq : popped.drainReady settings item = .ok (s', migrated)) : Counted settings s' := by
  have hcarried := carried_popReady hpop
  obtain ⟨hqueue, hpopped⟩ := popReady_cases hpop
  have hinflight : popped.inflight = s.inflight := by rw [hpopped]
  have hslices : popped.slices = s.slices := by rw [hpopped]
  have htargets : ∀ x ∈ item :: (popped.deferred ++ popped.readyQ), x.dIdx < settings.nDecode :=
    hqueue ▸ h.targets
  rcases drainReady_cases heq with ⟨_, _, rfl⟩ | ⟨slice, hall, rfl⟩
  · apply h.of_perm
    · refine List.Perm.trans ?_ hcarried.symm
      unfold Scheduler.carried
      rw [List.perm_iff_count]
      intro req
      simp only [List.count_append, List.flatMap_append, List.flatMap_singleton]
      omega
    · exact hinflight
    · exact totalDRunning_le fun d => by rw [hslices]
    · intro x hx
      refine htargets x ?_
      simp only [List.mem_append, List.mem_cons, List.not_mem_nil, or_false] at hx ⊢
      tauto
  · have hmoved := migrateAll_migrates settings hall
    have hnames := ((hcarried.map Req.rid).nodup_iff).mp h.names
    rw [List.map_append, List.nodup_append] at hnames
    obtain ⟨hdone, hleft, hapart⟩ := hnames
    have hknown : ∀ req ∈ item.batch.done ++ popped.carried, req.rid ∈ s.inflight :=
      fun req hreq => h.known req (hcarried.mem_iff.mpr hreq)
    constructor
    · exact hleft
    · intro req hreq
      have hcarriedReq : req ∈ popped.carried := hreq
      show req.rid ∈ item.batch.done.foldl Scheduler.untrackInflight popped.inflight
      rw [mem_foldl_untrack, hinflight]
      refine ⟨hknown req (List.mem_append_right _ hcarriedReq), fun hmem => ?_⟩
      exact hapart _ hmem _ (List.mem_map_of_mem hcarriedReq) rfl
    · rw [hinflight]
      exact nodup_foldl_untrack h.inflight
    · have hshrink : (item.batch.done.foldl Scheduler.untrackInflight s.inflight).length +
          item.batch.done.length ≤ s.inflight.length := by
        apply length_foldl_untrack h.inflight hdone
        intro rid hrid
        obtain ⟨req, hreq, rfl⟩ := List.mem_map.mp hrid
        exact hknown req (List.mem_append_left _ hreq)
      have hlength : (slice.running ++ migrated).length =
          (s.slices item.dIdx).running.length + item.batch.done.length := by
        rw [List.length_append, hmoved.running, hslices, ← hmoved.reqs, List.length_map]
      let moved : Scheduler := { popped with
        inflight := item.batch.done.foldl Scheduler.untrackInflight popped.inflight
        slices := Function.update popped.slices item.dIdx
          { slice with running := slice.running ++ migrated } }
      have hupdate : moved.slices = Function.update s.slices item.dIdx
          { slice with running := slice.running ++ migrated } := by rw [← hslices]
      have hgrow : moved.totalDRunning settings =
          s.totalDRunning settings + item.batch.done.length :=
        totalDRunning_update (htargets item List.mem_cons_self) hupdate hlength
      have htotal := h.total
      show (item.batch.done.foldl Scheduler.untrackInflight popped.inflight).length +
        moved.totalDRunning settings ≤ _
      rw [hgrow, hinflight]
      omega
    · exact fun x hx => htargets x (List.mem_cons_of_mem _ hx)

theorem Counted.step {act : Act} (h : Counted settings s) (hstep : Step settings act s s')
    (hown : OwnNames s act) : Counted settings s' := by
  cases hstep with
  | push _ howners _ hbatch hranks hlimit =>
    exact h.push howners hbatch hranks hlimit hown.1 hown.2
  | prefill pIdx heq => exact h.prefill heq
  | drain hpop heq => exact h.drain hpop heq
  | decode d hslice =>
    apply h.of_perm
    · exact List.Perm.refl _
    · rfl
    · apply totalDRunning_le
      intro d'
      dsimp only
      by_cases hd : d' = d
      · rw [hd, Function.update_self]
        exact hslice.running_le
      · rw [Function.update_of_ne hd]
    · exact h.targets

theorem Reaches.counted (h : Reaches settings OwnNames s) : Counted settings s := by
  induction h with
  | init => exact Counted.init settings
  | step _ hown hstep ih => exact ih.step hstep hown

theorem Reaches.mono {ok ok' : Scheduler → Act → Prop} (h : Reaches settings ok s)
    (hsub : ∀ s act, Reaches settings ok s → ok s act → ok' s act) : Reaches settings ok' s := by
  induction h with
  | init => exact .init
  | step hrun hok hstep ih => exact .step ih (hsub _ _ hrun hok) hstep

/-- Slices with as many slots as all of them may run requests never run out of them. -/
theorem Reaches.hasSlots
    (hlimit : settings.nDecode * (settings.dpSize * settings.perDpMaxRunningRequests) ≤
      settings.reqSlots) (h : Reaches settings OwnNames s) :
    Reaches settings (HasSlots settings) s ∧ ∀ act, HasSlots settings s act := by
  constructor
  · exact h.mono fun _ act hrun _ => hrun.counted.hasSlots hlimit act
  · exact h.counted.hasSlots hlimit

theorem Reaches.hasSlots_single (hone : settings.nDecode = 1) (h : Reaches settings OwnNames s) :
    Reaches settings (HasSlots settings) s ∧ ∀ act, HasSlots settings s act := by
  apply h.hasSlots
  rw [hone, Nat.one_mul]
  exact settings.limit

end Count

/-- A scheduler with one prefill slice whose decode slices hold one request each. -/
def oneSlot (nDecode : Nat) (hpos : 0 < nDecode) : Settings where
  nPrefill := 1
  nDecode := nDecode
  dpSize := 1
  perDpMaxRunningRequests := 1
  reqSlots := 1
  pageSize := 1
  numReservedDecodeTokens := 2
  maxInflightTransfers := 4
  allocators := fun _ => .pool (.token (.init 16 1))
  limit := le_rfl
  dpSize_pos := Nat.one_pos
  nDecode_pos := hpos
  wellFormed := fun _ => ⟨Nat.one_pos, fun p hp => by rw [List.mem_singleton.mp hp]; rfl⟩
  samePages := fun _ => rfl

/-- A short request, on its own. -/
def shortReq (rid : String) : Req := ⟨rid, 0, 2, 0, 0⟩

def alone (rid : String) : PrefillBatch := ⟨0, [shortReq rid], []⟩

section Runs

variable {settings : Settings} {ok : Scheduler → Act → Prop} {s s' popped : Scheduler}
  {item : ReadyItem} {migrated : List RunningReq}

/-- Pushes a request and prefills it. -/
def Scheduler.prefilled (settings : Settings) (s : Scheduler) (rid : String) : Scheduler :=
  ({ s.push (alone rid) [] with prefillQ := [] } : Scheduler).route settings (alone rid)

theorem Reaches.prefilled (rid : String) (h : Reaches settings ok s) (hslice : 0 < settings.nPrefill)
    (hchunked : s.chunkedReqs = []) (hqueue : s.prefillQ = [])
    (hready : s.readyQ.length < settings.maxInflightTransfers)
    (hlimit : 0 < s.newRequestLimit settings) (hpush : ok s (.push [shortReq rid]))
    (hprefill : ok (s.push (alone rid) []) .prefill) :
    Reaches settings ok (s.prefilled settings rid) := by
  have howners : s.chunkedReqs.Perm (([] : List ChunkedReq) ++ []) := by
    rw [hchunked]
    exact List.Perm.refl _
  refine .step (.step h hpush (.push hslice howners ?_ ?_ ?_ ?_)) hprefill (.prefill 0 ?_)
  · exact fun _ howner => absurd howner List.not_mem_nil
  · exact List.Perm.refl _
  · intro req hreq
    rw [List.mem_singleton.mp hreq]
    exact settings.dpSize_pos
  · intro rank
    exact Nat.le_trans (List.length_filter_le _ _) hlimit
  · unfold Scheduler.prefill Scheduler.prefilled Scheduler.push
    rw [hqueue]
    exact if_pos hready

theorem Reaches.drained (h : Reaches settings OwnNames s) (hpop : s.popReady = some (item, popped))
    (heq : popped.drainReady settings item = .ok (s', migrated)) : Reaches settings OwnNames s' :=
  have hok : OwnNames s .drain := trivial
  h.step hok (.drain hpop heq)

theorem Reaches.decoded {slice : DecodeSlice} (d : Nat) (h : Reaches settings OwnNames s)
    (hstep : DecodeStep (s.slices d) slice) :
    Reaches settings OwnNames { s with slices := Function.update s.slices d slice } :=
  have hok : OwnNames s .decode := trivial
  h.step hok (.decode d hstep)

end Runs

end SglJax.Disaggregation.Pathways
