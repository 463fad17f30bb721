import SglJax.Foundation.Results
import SglJax.Managers.DecodeMemory

/-! A decode step finds the memory that was checked or made for it. Caches only
give room back, and a rank's allocation leaves the room of the others alone. -/
namespace SglJax.Managers

open Foundation MemCache

variable {τ ρ : Type}

/-- What happens to the pools when nothing is allocated and no request released. -/
structure DecodeMem.Grows (m m' : DecodeMem τ ρ) : Prop where
  frees : m.allocator.Frees m'.allocator
  released : m'.released = m.released

namespace DecodeMem.Grows

variable {m m' m'' : DecodeMem τ ρ}

theorem refl (m : DecodeMem τ ρ) : Grows m m := ⟨.refl _, rfl⟩

theorem trans (h : Grows m m') (h' : Grows m' m'') : Grows m m'' :=
  ⟨h.frees.trans h'.frees, h'.released.trans h.released⟩

theorem foldlM {ε α : Type} {f : DecodeMem τ ρ → α → Except ε (DecodeMem τ ρ)}
    (hf : ∀ {m m' x}, f m x = .ok m' → Grows m m') {xs : List α}
    (hok : xs.foldlM f m = .ok m') : Grows m m' := by
  induction xs generalizing m with
  | nil =>
    cases hok
    exact refl _
  | cons x xs ih =>
    rw [List.foldlM_cons] at hok
    obtain ⟨m₁, hstep, hrest⟩ := bind_eq_ok.mp hok
    exact (hf hstep).trans (ih hrest)

end DecodeMem.Grows

theorem isAvailableSizeSufficient_iff {a : KvAllocator} {needs : List (Nat × Nat)} :
    isAvailableSizeSufficient a needs = true ↔ ∀ need ∈ needs, a.Room need.1 need.2 := by
  cases a <;>
    simp [isAvailableSizeSufficient, KvAllocator.Room, KvAllocator.pools,
      SwaAllocator.fullAvailableSize, SwaAllocator.swaAvailableSize]

theorem newTokens_perm (pageSize : Nat) {reqs reqs' : List (BatchReq ρ)} (h : reqs.Perm reqs') :
    newTokens pageSize reqs = newTokens pageSize reqs' := by
  unfold newTokens
  rw [h.countP_eq]

/-- Where the lengths agree with what is committed, `alloc_decode` needs as many
pages as were asked for. -/
theorem newDecodePages_decodeSeqs (table : ReqToToken) {pageSize : Nat} (hpage : 0 < pageSize)
    {reqPoolIndices : List Nat} {reqs : List (BatchReq ρ)}
    (hlen : reqPoolIndices.length = reqs.length) :
    PagedAllocator.newDecodePages pageSize
      (TreeCache.decodeSeqs table reqPoolIndices (reqs.map (·.kvCommittedLen))) * pageSize =
      newTokens pageSize reqs := by
  have hneed (seqLen : Nat) (loc : Int) :
      needsNewPage pageSize ⟨seqLen + 1, loc, Nat.succ_pos _⟩ = (seqLen % pageSize == 0) := by
    rw [Bool.eq_iff_iff, needsNewPage_iff hpage, beq_iff_eq, Nat.add_sub_cancel]
  unfold PagedAllocator.newDecodePages newTokens TreeCache.decodeSeqs
  congr 1
  induction reqs generalizing reqPoolIndices with
  | nil => simp
  | cons req reqs ih =>
    cases reqPoolIndices with
    | nil => cases hlen
    | cons idx reqPoolIndices =>
      simp only [List.map_cons, List.zipWith_cons_cons, List.countP_cons, hneed]
      rw [ih (Nat.succ.inj hlen)]

namespace TreeCache

variable (cache : TreeCache τ ρ) (cfg : DecodeConfig ρ) {m m' : DecodeMem τ ρ}

section Frees

variable {cache cfg}

theorem evictFromTreeCache_grows {numTokens dpRank : Nat}
    (hok : cache.evictFromTreeCache numTokens dpRank m = .ok m') : m.Grows m' := by
  unfold evictFromTreeCache at hok
  split at hok
  · cases hok
    exact .refl _
  · split at hok
    · cases hok
      exact .refl _
    · obtain ⟨result, hevict, hres⟩ := bind_eq_ok.mp hok
      cases hres
      exact ⟨cache.evict_frees (mapError_eq_ok.mp hevict), rfl⟩

theorem evictTreeCacheIfNeeded_grows {needs : List (Nat × Nat)}
    (hok : cache.evictTreeCacheIfNeeded needs m = .ok m') : m.Grows m' :=
  .foldlM evictFromTreeCache_grows hok

theorem releaseKv_frees {req : BatchReq ρ} (hok : cache.releaseKv req m = .ok m') :
    m.allocator.Frees m'.allocator ∧ m'.released = m.released ++ [req] := by
  unfold releaseKv at hok
  split at hok
  · cases hok
    exact ⟨.refl _, rfl⟩
  · obtain ⟨result, hrelease, hres⟩ := bind_eq_ok.mp hok
    cases hres
    exact ⟨cache.releaseKvCache_frees (mapError_eq_ok.mp hrelease), rfl⟩

theorem releaseReq_frees {req : BatchReq ρ} {dpRank remaining : Nat}
    (hok : cache.releaseReq cfg req dpRank remaining m = .ok m') :
    m.allocator.Frees m'.allocator ∧ m'.released = m.released ++ [req] := by
  obtain ⟨m₁, hrelease, hevict⟩ := bind_eq_ok.mp hok
  have hone := releaseKv_frees hrelease
  have htwo := evictTreeCacheIfNeeded_grows hevict
  exact ⟨hone.1.trans htwo.frees, htwo.released.trans hone.2⟩

theorem maybeEvictSwa_grows {batch : ScheduleBatch ρ}
    (hok : cache.maybeEvictSwa cfg batch m = .ok m') : m.Grows m' := by
  unfold maybeEvictSwa at hok
  split at hok
  · apply DecodeMem.Grows.foldlM ?_ hok
    intro m m' due hdue
    obtain ⟨result, hevict, hres⟩ := bind_eq_ok.mp hdue
    cases hres
    exact ⟨cache.evictReqSwa_frees (mapError_eq_ok.mp hevict), rfl⟩
  · cases hok
    exact .refl _

end Frees

/-! ### The check -/

theorem requirements_mem {pageSize dpRank : Nat} {infos : List (ScheduleReqsInfo ρ)}
    {needs : List (Nat × Nat)} (hok : requirements pageSize none dpRank infos = .ok needs) {i : Nat}
    {info : ScheduleReqsInfo ρ} (hi : infos[i]? = some info) (hne : info.reqs ≠ []) :
    (dpRank + i, newTokens pageSize info.reqs) ∈ needs := by
  induction infos generalizing dpRank needs i with
  | nil => cases hi
  | cons head infos ih =>
    obtain ⟨numTokens, hnum, hrest⟩ := bind_eq_ok.mp hok
    obtain ⟨rest, hrest, hneeds⟩ := bind_eq_ok.mp hrest
    cases i with
    | zero =>
      cases hi
      simp only [newTokensRequiredNextDecode, List.isEmpty_iff, hne, if_false, Option.bind_none,
        Option.elim_none] at hnum
      cases hnum
      simp only [List.isEmpty_iff, hne, if_false] at hneeds
      cases hneeds
      exact List.mem_cons_self
    | succ i =>
      have hmem := ih hrest hi
      rw [Nat.add_right_comm, Nat.add_assoc] at hmem
      split at hneeds
      · cases hneeds
        exact hmem
      · cases hneeds
        exact List.mem_cons_of_mem _ hmem

@[simp] theorem room_zero (a : KvAllocator) (rank : Nat) : a.Room rank 0 :=
  fun _ _ => Nat.zero_le _

/-- Every rank has the room its requests need for one more token. -/
def Ready (dpRank : Nat) (infos : List (ScheduleReqsInfo ρ)) (a : KvAllocator) : Prop :=
  ∀ i info, infos[i]? = some info → a.Room (dpRank + i) (newTokens a.pageSize info.reqs)

theorem checkDecodeMem_ready {batch : ScheduleBatch ρ}
    (hok : cache.checkDecodeMem none batch m = .ok (m', true)) :
    Ready 0 batch.reqsInfo m'.allocator := by
  obtain ⟨needs, hneeds, hrest⟩ := bind_eq_ok.mp hok
  obtain ⟨m₁, hevict, hres⟩ := bind_eq_ok.mp hrest
  obtain ⟨hm, hfits⟩ : m₁ = m' ∧ isAvailableSizeSufficient m₁.allocator needs = true := by
    simpa [pure, Except.pure] using hres
  subst hm
  have hpage := (evictTreeCacheIfNeeded_grows hevict).frees.keeps.pageSize
  intro i info hi
  by_cases hne : info.reqs = []
  · simp [hne, newTokens]
  · rw [hpage]
    have hmem := requirements_mem (mapError_eq_ok.mp hneeds) hi hne
    exact isAvailableSizeSufficient_iff.mp hfits _ hmem

theorem Ready.keeps {dpRank : Nat} {infos : List (ScheduleReqsInfo ρ)} {a b : KvAllocator}
    {on : Nat → Prop} (h : Ready dpRank infos a) (hkeep : a.Keeps on b)
    (hon : ∀ i, on (dpRank + i)) : Ready dpRank infos b := by
  intro i info hi
  rw [hkeep.pageSize]
  exact hkeep.room (hon i) (h i info hi)

/-! ### The allocation -/

/-- `seq_lens` holds the committed lengths. -/
def Committed (infos : List (ScheduleReqsInfo ρ)) : Prop :=
  ∀ info ∈ infos, info.reqs ≠ [] → info.seqLens = some (info.reqs.map (·.kvCommittedLen))

/-- The two ways to say that there is no memory. -/
def OutOfMemory {α : Type} (x : Except DecodeError α) : Prop :=
  x = .error .outOfMemory ∨ x = .error (.batch .kvOutOfMemory)

section OutOfMemory

variable {α β ε : Type}

theorem outOfMemory_bind {x : Except DecodeError α} {g : α → Except DecodeError β}
    (h : OutOfMemory (x >>= g)) : OutOfMemory x ∨ ∃ a, x = .ok a ∧ OutOfMemory (g a) := by
  cases x with
  | ok a => exact .inr ⟨a, rfl, h⟩
  | error e =>
    left
    unfold OutOfMemory at h ⊢
    simpa [bind, Except.bind] using h

@[simp] theorem not_outOfMemory_ok (a : α) : ¬ OutOfMemory (.ok a : Except DecodeError α) := by
  simp [OutOfMemory]

@[simp] theorem not_outOfMemory_pure (a : α) :
    ¬ OutOfMemory (pure a : Except DecodeError α) := by
  simp [OutOfMemory, pure, Except.pure]

@[simp] theorem not_outOfMemory_tree (x : Except TreeCacheError α) :
    ¬ OutOfMemory (x.mapError .tree) := by
  cases x <;> simp [OutOfMemory, Except.mapError]

@[simp] theorem not_outOfMemory_alloc (x : Except AllocError α) :
    ¬ OutOfMemory (x.mapError .alloc) := by
  cases x <;> simp [OutOfMemory, Except.mapError]

theorem outOfMemory_batch {x : Except BatchError α} (h : OutOfMemory (x.mapError .batch)) :
    x = .error .kvOutOfMemory := by
  cases x <;> simp_all [OutOfMemory, Except.mapError]

theorem not_outOfMemory_poolRows (info : ScheduleReqsInfo ρ) :
    ¬ OutOfMemory ((poolRows info).mapError .batch) := by
  intro h
  have hrows := outOfMemory_batch h
  unfold poolRows at hrows
  split at hrows
  · split at hrows <;> cases hrows
  · cases hrows

theorem not_outOfMemory_evict (numTokens dpRank : Nat) (m : DecodeMem τ ρ) :
    ¬ OutOfMemory (cache.evictFromTreeCache numTokens dpRank m) := by
  unfold evictFromTreeCache
  split
  · simp
  · split
    · simp
    · intro h
      rcases outOfMemory_bind h with h | ⟨result, -, h⟩ <;> simp at h

theorem not_outOfMemory_foldlM {f : α → β → Except DecodeError α}
    (hf : ∀ a b, ¬ OutOfMemory (f a b)) (xs : List β) (a : α) :
    ¬ OutOfMemory (xs.foldlM f a) := by
  induction xs generalizing a with
  | nil => simp
  | cons x xs ih =>
    rw [List.foldlM_cons]
    intro h
    rcases outOfMemory_bind h with h | ⟨a', -, h⟩
    · exact hf a x h
    · exact ih a' h

theorem not_outOfMemory_maybeEvictSwa (batch : ScheduleBatch ρ) (m : DecodeMem τ ρ) :
    ¬ OutOfMemory (cache.maybeEvictSwa cfg batch m) := by
  unfold maybeEvictSwa
  split
  · apply not_outOfMemory_foldlM
    intro m due h
    rcases outOfMemory_bind h with h | ⟨result, -, h⟩ <;> simp at h
  · simp

end OutOfMemory

/-- An allocation for one rank that finds its slots and leaves the other ranks
their room. -/
structure Serves (dpRank : Nat) (m : DecodeMem τ ρ)
    (x : Except DecodeError (DecodeMem τ ρ × List Nat)) : Prop where
  served : ¬ OutOfMemory x
  keeps : ∀ m' slots, x = .ok (m', slots) → m.allocator.Keeps (· ≠ dpRank) m'.allocator

variable {cache} {dpRank : Nat}

theorem serves_takeSlots {need : Nat}
    {result : Except AllocError (KvAllocator × Option (List Nat))}
    (hserved : ∀ b out, result = .ok (b, out) → KvAllocator.Served dpRank need m.allocator b out)
    (hroom : m.allocator.Room dpRank need) : Serves dpRank m (takeSlots m result) where
  served h := by
    rcases outOfMemory_bind h with h | ⟨⟨b, out⟩, hres, h⟩
    · simp at h
    · have hsome := (hserved b out (mapError_eq_ok.mp hres)).room hroom
      obtain ⟨slots, rfl⟩ := Option.isSome_iff_exists.mp hsome
      rcases outOfMemory_bind h with h | ⟨slots', -, h⟩
      · simp at h
      · simp at h
  keeps m' slots h := by
    obtain ⟨⟨b, out⟩, hres, hrest⟩ := bind_eq_ok.mp h
    obtain ⟨slots', -, heq⟩ := bind_eq_ok.mp hrest
    cases heq
    exact (hserved b out (mapError_eq_ok.mp hres)).keeps

/-- What is evicted first is no loss. -/
theorem Serves.bind {x : Except DecodeError (DecodeMem τ ρ)}
    {g : DecodeMem τ ρ → Except DecodeError (DecodeMem τ ρ × List Nat)}
    (hx : ¬ OutOfMemory x) (hgrows : ∀ m₁, x = .ok m₁ → m.Grows m₁)
    (hg : ∀ m₁, m.Grows m₁ → Serves dpRank m₁ (g m₁)) : Serves dpRank m (x >>= g) where
  served h := by
    rcases outOfMemory_bind h with h | ⟨m₁, hm₁, h⟩
    · exact hx h
    · exact (hg m₁ (hgrows m₁ hm₁)).served h
  keeps m' slots h := by
    obtain ⟨m₁, hm₁, hrest⟩ := bind_eq_ok.mp h
    have hgrow := hgrows m₁ hm₁
    have hfirst := hgrow.frees.keeps.mono fun rank (_ : rank ≠ dpRank) => trivial
    exact hfirst.trans ((hg m₁ hgrow).keeps m' slots hrest)

theorem newTokens_page_one (reqs : List (BatchReq ρ)) : newTokens 1 reqs = reqs.length := by
  simp [newTokens, Nat.mod_one]

theorem poolRows_eq {info : ScheduleReqsInfo ρ} {rows : List Nat × List Nat}
    (hlens : info.seqLens = some (info.reqs.map (·.kvCommittedLen)))
    (hrows : poolRows info = .ok rows) :
    rows.1.length = info.reqs.length ∧ rows.2 = info.reqs.map (·.kvCommittedLen) := by
  unfold poolRows at hrows
  rw [hlens] at hrows
  split at hrows
  · rename_i reqPoolIndices seqLens' _ hseq
    cases hseq
    split at hrows
    · rename_i hlen
      cases hrows
      exact ⟨by simpa using hlen, rfl⟩
    · cases hrows
  · cases hrows

theorem serves_allocDecodeSlots (cache : TreeCache τ ρ) {info : ScheduleReqsInfo ρ}
    (hwf : m.allocator.WellFormed)
    (hlens : info.seqLens = some (info.reqs.map (·.kvCommittedLen)))
    (hroom : m.allocator.Room dpRank (newTokens m.allocator.pageSize info.reqs)) :
    Serves dpRank m (cache.allocDecodeSlots dpRank info m) := by
  unfold allocDecodeSlots
  split
  · rename_i hone
    rw [hone, newTokens_page_one] at hroom
    apply Serves.bind (not_outOfMemory_evict cache _ _ _) fun m₁ => evictFromTreeCache_grows
    intro m₁ hgrow
    apply serves_takeSlots fun b out => KvAllocator.served_alloc
    exact hgrow.frees.keeps.room trivial hroom
  · have hdecode (rows : List Nat × List Nat) (hrows : poolRows info = .ok rows) : Serves dpRank m
        (cache.allocPagedTokenSlotsDecode (decodeSeqs m.reqToToken rows.1 rows.2) dpRank m) := by
      obtain ⟨hlen, hseq⟩ := poolRows_eq hlens hrows
      apply Serves.bind (not_outOfMemory_foldlM (fun m need => ?_) _ _)
        fun m₁ => evictTreeCacheIfNeeded_grows
      · intro m₁ hgrow
        apply serves_takeSlots fun b out =>
          KvAllocator.served_allocDecode (hwf.keeps hgrow.frees.keeps)
        have hpage := hgrow.frees.keeps.pageSize
        rw [hpage, hseq, newDecodePages_decodeSeqs _ hwf.page_pos hlen]
        exact hgrow.frees.keeps.room trivial hroom
      · exact not_outOfMemory_evict cache _ _ _
    refine ⟨fun h => ?_, fun m' slots h => ?_⟩
    · rcases outOfMemory_bind h with h | ⟨rows, hrows, h⟩
      · exact not_outOfMemory_poolRows info h
      · exact (hdecode rows (mapError_eq_ok.mp hrows)).served h
    · obtain ⟨rows, hrows, hrest⟩ := bind_eq_ok.mp h
      exact (hdecode rows (mapError_eq_ok.mp hrows)).keeps m' slots hrest

/-- A rank that needs no memory, or finds it. -/
theorem prepareRank_served (cache : TreeCache τ ρ) {info : ScheduleReqsInfo ρ}
    (hwf : m.allocator.WellFormed)
    (hlens : info.reqs ≠ [] → info.seqLens = some (info.reqs.map (·.kvCommittedLen)))
    (hroom : m.allocator.Room dpRank (newTokens m.allocator.pageSize info.reqs)) :
    ¬ OutOfMemory (cache.prepareRank dpRank info m) ∧
      ∀ info' m', cache.prepareRank dpRank info m = .ok (info', m') →
        m.allocator.Keeps (· ≠ dpRank) m'.allocator := by
  unfold prepareRank
  constructor
  · intro h
    rcases outOfMemory_bind h with h | ⟨next, -, h⟩
    · have hnext := outOfMemory_batch h
      unfold ScheduleReqsInfo.prepareForDecode at hnext
      split at hnext
      · cases hnext
      · split at hnext <;> cases hnext
    · split at h
      · simp at h
      · rename_i hne
        have hserves := serves_allocDecodeSlots cache hwf (hlens (by simpa using hne)) hroom
        rcases outOfMemory_bind h with h | ⟨⟨m₁, slots⟩, -, h⟩
        · exact hserves.served h
        · rcases outOfMemory_bind h with h | ⟨rows, -, h⟩
          · exact not_outOfMemory_poolRows info h
          · simp at h
  · intro info' m' h
    obtain ⟨next, -, hrest⟩ := bind_eq_ok.mp h
    split at hrest
    · cases hrest
      exact .refl _ _
    · rename_i hne
      have hserves := serves_allocDecodeSlots cache hwf (hlens (by simpa using hne)) hroom
      obtain ⟨⟨m₁, slots⟩, halloc, hrest⟩ := bind_eq_ok.mp hrest
      obtain ⟨rows, -, heq⟩ := bind_eq_ok.mp hrest
      cases heq
      exact hserves.keeps m₁ slots halloc

theorem prepareRanks_served {infos : List (ScheduleReqsInfo ρ)} (hwf : m.allocator.WellFormed)
    (hlens : Committed infos) (hready : Ready dpRank infos m.allocator) :
    ¬ OutOfMemory (cache.prepareRanks dpRank infos m) := by
  induction infos generalizing dpRank m with
  | nil => simp [prepareRanks]
  | cons info infos ih =>
    have hrank := prepareRank_served cache hwf (hlens info List.mem_cons_self)
      (hready 0 info rfl)
    intro h
    unfold prepareRanks at h
    rcases outOfMemory_bind h with h | ⟨⟨info', m₁⟩, hone, h⟩
    · exact hrank.1 h
    · have hkeep := hrank.2 info' m₁ hone
      rcases outOfMemory_bind h with h | ⟨result, -, h⟩
      · apply ih (hwf.keeps hkeep) (fun info hinfo => hlens info (List.mem_cons_of_mem _ hinfo)) ?_ h
        intro i info hi
        have hroom := hready (i + 1) info hi
        rw [hkeep.pageSize]
        rw [← Nat.add_assoc, Nat.add_right_comm] at hroom
        exact hkeep.room (by omega) hroom
      · simp at h

/-- What decides: every rank has its room before the step begins. -/
theorem prepareForDecode_served {batch : ScheduleBatch ρ} (hwf : m.allocator.WellFormed)
    (hlens : Committed batch.reqsInfo) (hready : Ready 0 batch.reqsInfo m.allocator) :
    ¬ OutOfMemory (cache.prepareForDecode cfg batch m) := by
  intro h
  unfold prepareForDecode at h
  rcases outOfMemory_bind h with h | ⟨m₁, hswa, h⟩
  · exact not_outOfMemory_maybeEvictSwa cache cfg batch m h
  · have hkeep := (maybeEvictSwa_grows hswa).frees.keeps
    rcases outOfMemory_bind h with h | ⟨result, -, h⟩
    · apply prepareRanks_served (hwf.keeps hkeep) hlens ?_ h
      exact hready.keeps hkeep fun _ => trivial
    · simp at h

theorem prepareRanks_batch {infos infos' : List (ScheduleReqsInfo ρ)}
    (hok : cache.prepareRanks dpRank infos m = .ok (infos', m')) :
    ScheduleBatch.forRanks (fun _ info => info.prepareForDecode true) dpRank infos =
      .ok infos' := by
  induction infos generalizing dpRank m infos' with
  | nil =>
    cases hok
    rfl
  | cons info infos ih =>
    obtain ⟨⟨info', m₁⟩, hrank, hrest⟩ := bind_eq_ok.mp hok
    obtain ⟨⟨rest, m₂⟩, hranks, heq⟩ := bind_eq_ok.mp hrest
    cases heq
    obtain ⟨next, hnext, hslots⟩ := bind_eq_ok.mp hrank
    have hsame : next = info' := by
      split at hslots
      · cases hslots
        rfl
      · obtain ⟨result, -, hrows⟩ := bind_eq_ok.mp hslots
        obtain ⟨rows, -, hend⟩ := bind_eq_ok.mp hrows
        cases hend
        rfl
    rw [hsame] at hnext
    unfold ScheduleBatch.forRanks
    rw [bind_eq_ok]
    refine ⟨info', mapError_eq_ok.mp hnext, ?_⟩
    rw [bind_eq_ok]
    exact ⟨rest, ih hranks, rfl⟩

/-- With the pools behind it, `prepare_for_decode` does to the batch what it does
when every rank is served. -/
theorem prepareForDecode_batch {batch batch' : ScheduleBatch ρ}
    (hok : cache.prepareForDecode cfg batch m = .ok (batch', m')) :
    batch.prepareForDecode (fun _ => true) = .ok batch' := by
  obtain ⟨m₁, -, hrest⟩ := bind_eq_ok.mp hok
  obtain ⟨⟨infos, m₂⟩, hranks, heq⟩ := bind_eq_ok.mp hrest
  cases heq
  exact bind_eq_ok.mpr ⟨infos, prepareRanks_batch hranks, rfl⟩

/-! ### Retraction -/

/-- The state in which the last request of a rank was found not to fit: all the
others had been released, and what could be evicted for it was evicted. -/
structure LastDidNotFit (cache : TreeCache τ ρ) (cfg : DecodeConfig ρ) (dpRank : Nat)
    (req : BatchReq ρ) (before after : DecodeMem τ ρ) : Prop where
  evicted : ∃ checked, cache.evictTreeCacheIfNeeded
      [(dpRank, newTokens before.allocator.pageSize [req])] before = .ok checked ∧
    ¬ checked.allocator.Room dpRank (newTokens before.allocator.pageSize [req]) ∧
    cache.releaseReq cfg req dpRank 0 checked = .ok after

/-- What `retract_decode` does to the requests at the given indices of a rank. -/
structure Retracted (cache : TreeCache τ ρ) (cfg : DecodeConfig ρ) (dpRank : Nat)
    (info : ScheduleReqsInfo ρ) (indices : List Nat) (m m' : DecodeMem τ ρ)
    (split : RetractSplit) : Prop where
  partition : (split.kept ++ split.retracted ++ split.aborted).Perm indices
  frees : m.allocator.Frees m'.allocator
  released : m'.released = m.released ++ picked info.reqs (split.retracted ++ split.aborted)
  fits : m'.allocator.Room dpRank
    (newTokens m'.allocator.pageSize (picked info.reqs split.kept))
  lastOne : ∀ i ∈ split.aborted, split.aborted = [i] ∧ split.kept = [] ∧
    ∃ req before, info.reqs[i]? = some req ∧
      before.released = m.released ++ picked info.reqs split.retracted ∧
      m.allocator.Frees before.allocator ∧ LastDidNotFit cache cfg dpRank req before m'

theorem newTokensRequired_selected {pageSize : Nat} {info : ScheduleReqsInfo ρ}
    {indices : List Nat} {numTokens : Nat} (hne : info.reqs ≠ [])
    (hok : newTokensRequiredNextDecode pageSize info (some indices) = .ok numTokens) :
    numTokens = newTokens pageSize (picked info.reqs indices) := by
  simp only [newTokensRequiredNextDecode, List.isEmpty_iff, hne, if_false, Option.elim_some] at hok
  unfold takeIndices at hok
  cases hgather : gather info.reqs indices with
  | none =>
    rw [hgather] at hok
    cases hok
  | some reqs =>
    rw [hgather] at hok
    cases hok
    rw [picked_of_gather hgather]

theorem retractLoop_retracted {info : ScheduleReqsInfo ρ} {order : List Nat} {split : RetractSplit}
    (hne : info.reqs ≠ [])
    (hok : cache.retractLoop cfg dpRank info order m = .ok (m', split)) :
    Retracted cache cfg dpRank info order m m' split := by
  induction order generalizing m m' split with
  | nil =>
    cases hok
    exact ⟨.refl _, .refl _, by simp, by simp [newTokens], by simp⟩
  | cons idx others ih =>
    obtain ⟨numTokens, hnum, hrest⟩ := bind_eq_ok.mp hok
    obtain ⟨m₁, hevict, hrest⟩ := bind_eq_ok.mp hrest
    have hneed := newTokensRequired_selected hne (mapError_eq_ok.mp hnum)
    have hgrow := evictTreeCacheIfNeeded_grows hevict
    split at hrest
    · -- enough room: nobody else goes
      rename_i hfits
      cases hrest
      refine ⟨?_, hgrow.frees, by simpa using hgrow.released, ?_, by simp⟩
      · simpa only [List.append_nil] using List.reverse_perm (idx :: others)
      · rw [hgrow.frees.keeps.pageSize, ← hneed]
        exact isAvailableSizeSufficient_iff.mp hfits _ List.mem_cons_self
    · rename_i hshort
      obtain ⟨req, hreq, hafter⟩ := bind_eq_ok.mp hrest
      obtain ⟨m₂, hrelease, hend⟩ := bind_eq_ok.mp hafter
      clear hrest hafter
      have hidx : info.reqs[idx]? = some req := by
        cases h : info.reqs[idx]? with
        | none =>
          rw [h] at hreq
          cases hreq
        | some r =>
          rw [h] at hreq
          cases hreq
          rfl
      have hfree := releaseReq_frees hrelease
      have hlog : m₂.released = m.released ++ [req] := by
        rw [hfree.2, hgrow.released]
      split at hend
      · -- the last one is aborted
        rename_i hlast
        have hothers : others = [] := by simpa using hlast
        subst hothers
        cases hend
        refine ⟨by simp, hgrow.frees.trans hfree.1, by simp [hlog, picked, hidx],
          by simp [newTokens], ?_⟩
        intro i hi
        obtain rfl : i = idx := by simpa using hi
        refine ⟨rfl, rfl, req, m, hidx, by simp, .refl _, ⟨m₁, ?_⟩⟩
        have hone : numTokens = newTokens m.allocator.pageSize [req] := by
          simpa [picked, hidx] using hneed
        rw [← hone]
        refine ⟨hevict, fun hroom => hshort ?_, hrelease⟩
        apply isAvailableSizeSufficient_iff.mpr
        simpa using hroom
      · obtain ⟨⟨m₃, inner⟩, hloop, heq⟩ := bind_eq_ok.mp hend
        cases heq
        have hinner := ih hloop
        refine ⟨?_, (hgrow.frees.trans hfree.1).trans hinner.frees, ?_, hinner.fits, ?_⟩
        · have hperm := hinner.partition.cons idx
          refine List.Perm.trans ?_ hperm
          simp only [List.append_assoc, List.cons_append]
          exact List.perm_middle
        · rw [hinner.released, hlog]
          simp [picked, hidx]
        · intro i hi
          obtain ⟨hone, hkept, last, before, hlast, hbefore, hfrees, hdid⟩ := hinner.lastOne i hi
          refine ⟨hone, hkept, last, before, hlast, ?_, (hgrow.frees.trans hfree.1).trans hfrees, hdid⟩
          rw [hbefore, hlog]
          simp [picked, hidx]

theorem retractRank_retracted {info : ScheduleReqsInfo ρ} {split : RetractSplit}
    (hok : cache.retractRank cfg dpRank info m = .ok (m', split)) :
    Retracted cache cfg dpRank info (List.range info.reqs.length) m m' split := by
  unfold retractRank at hok
  split at hok
  · rename_i hnil
    have hreqs : info.reqs = [] := by simpa using hnil
    cases hok
    exact ⟨by simp [hreqs], .refl _, by simp, by simp [newTokens], by simp⟩
  · rename_i hne
    have hloop := retractLoop_retracted cfg (by simpa using hne) hok
    have hsorted : (sortedIndices cfg info).reverse.Perm (List.range info.reqs.length) :=
      (List.reverse_perm _).trans (List.mergeSort_perm _ _)
    exact { hloop with partition := hloop.partition.trans hsorted }

/-- The ranks one after the other. -/
inductive RanksRetracted (cache : TreeCache τ ρ) (cfg : DecodeConfig ρ) :
    Nat → List (ScheduleReqsInfo ρ) → DecodeMem τ ρ → List RetractSplit → DecodeMem τ ρ → Prop where
  | nil {dpRank : Nat} {m : DecodeMem τ ρ} : RanksRetracted cache cfg dpRank [] m [] m
  | cons {dpRank : Nat} {info : ScheduleReqsInfo ρ} {infos : List (ScheduleReqsInfo ρ)}
      {split : RetractSplit} {splits : List RetractSplit} {m m₁ m' : DecodeMem τ ρ}
      (head : Retracted cache cfg dpRank info (List.range info.reqs.length) m m₁ split)
      (tail : RanksRetracted cache cfg (dpRank + 1) infos m₁ splits m') :
      RanksRetracted cache cfg dpRank (info :: infos) m (split :: splits) m'

theorem retractRanks_retracted {infos : List (ScheduleReqsInfo ρ)} {splits : List RetractSplit}
    (hok : cache.retractRanks cfg dpRank infos m = .ok (m', splits)) :
    RanksRetracted cache cfg dpRank infos m splits m' := by
  induction infos generalizing dpRank m splits with
  | nil =>
    cases hok
    exact .nil
  | cons info infos ih =>
    obtain ⟨⟨m₁, split⟩, hone, hrest⟩ := bind_eq_ok.mp hok
    obtain ⟨⟨m₂, splits'⟩, hranks, heq⟩ := bind_eq_ok.mp hrest
    cases heq
    exact .cons (retractRank_retracted cfg hone) (ih hranks)

namespace RanksRetracted

variable {cfg} {infos : List (ScheduleReqsInfo ρ)} {splits : List RetractSplit}

theorem frees (h : RanksRetracted cache cfg dpRank infos m splits m') :
    m.allocator.Frees m'.allocator := by
  induction h with
  | nil => exact .refl _
  | cons head _ ih => exact head.frees.trans ih

/-- What a rank was left with still fits when the last rank is done. -/
theorem fits (h : RanksRetracted cache cfg dpRank infos m splits m') {i : Nat}
    {info : ScheduleReqsInfo ρ} (hi : infos[i]? = some info) :
    ∃ split, splits[i]? = some split ∧
      (split.kept ++ split.retracted ++ split.aborted).Perm (List.range info.reqs.length) ∧
      m'.allocator.Room (dpRank + i)
        (newTokens m'.allocator.pageSize (picked info.reqs split.kept)) := by
  induction h generalizing i with
  | nil => cases hi
  | @cons dpRank _ _ split _ _ _ _ head tail ih =>
    cases i with
    | zero =>
      cases hi
      have hkeep := tail.frees.keeps
      refine ⟨split, rfl, head.partition, ?_⟩
      rw [hkeep.pageSize]
      exact hkeep.room trivial head.fits
    | succ i =>
      obtain ⟨split, hsplit, hpart, hroom⟩ := ih hi
      refine ⟨split, hsplit, hpart, ?_⟩
      rwa [← Nat.add_assoc, Nat.add_right_comm]

theorem released (h : RanksRetracted cache cfg dpRank infos m splits m') :
    m'.released.Perm (m.released ++ (pickedReqs RetractSplit.retracted infos splits ++
      pickedReqs RetractSplit.aborted infos splits)) := by
  induction h with
  | nil => simp [pickedReqs]
  | @cons _ info infos split splits _ _ _ head _ ih =>
    rw [head.released] at ih
    refine ih.trans ?_
    simp only [pickedReqs, List.zip_cons_cons, List.flatMap_cons, picked, List.filterMap_append,
      List.append_assoc]
    apply List.Perm.append_left
    apply List.Perm.append_left
    rw [← List.append_assoc, ← List.append_assoc]
    exact List.perm_append_comm.append_right _

end RanksRetracted

/-! ### The batch that is left -/

theorem takeIndices_eq {α : Type} {col c : List α} {idx : List Nat}
    (hok : takeIndices col idx = .ok c) : c = picked col idx := by
  unfold takeIndices at hok
  cases hgather : gather col idx with
  | none =>
    rw [hgather] at hok
    cases hok
  | some c' =>
    rw [hgather] at hok
    cases hok
    exact picked_of_gather hgather

theorem filterBatch_kept {info info' : ScheduleReqsInfo ρ} {kept rest : List Nat}
    (hpart : (kept ++ rest).Perm (List.range info.reqs.length))
    (hlens : info.reqs ≠ [] → info.seqLens = some (info.reqs.map (·.kvCommittedLen)))
    (hok : info.filterBatch kept = .ok info') :
    info'.reqs.Perm (picked info.reqs kept) ∧
      (info'.reqs ≠ [] → info'.seqLens = some (info'.reqs.map (·.kvCommittedLen))) := by
  unfold ScheduleReqsInfo.filterBatch at hok
  split at hok
  · rename_i hnil
    have hreqs : info.reqs = [] := by simpa using hnil
    cases hok
    simp [hreqs]
  · rename_i hne
    split at hok
    · rename_i hnone
      have hkept : kept = [] := List.length_eq_zero_iff.mp hnone
      cases hok
      simp [hkept, ScheduleReqsInfo.cleared]
    · split at hok
      · rename_i hall
        have hlen := hpart.length_eq
        rw [List.length_append, List.length_range] at hlen
        have hrest : rest = [] := List.length_eq_zero_iff.mp (by omega)
        rw [hrest, List.append_nil] at hpart
        cases hok
        exact ⟨(picked_perm hpart).symm, hlens⟩
      · obtain ⟨reqs, hreqs, hok⟩ := bind_eq_ok.mp hok
        obtain ⟨reqPoolIndices, -, hok⟩ := bind_eq_ok.mp hok
        obtain ⟨seqLens, hseq, hok⟩ := bind_eq_ok.mp hok
        obtain ⟨outputIds, -, hok⟩ := bind_eq_ok.mp hok
        obtain ⟨topLogprobsNums, -, hok⟩ := bind_eq_ok.mp hok
        obtain ⟨tokenIdsLogprobs, -, hok⟩ := bind_eq_ok.mp hok
        obtain ⟨samplingInfo, -, hok⟩ := bind_eq_ok.mp hok
        cases hok
        have hrows := takeIndices_eq hreqs
        rw [hlens (by simpa using hne)] at hseq
        obtain ⟨lens, htake, rfl⟩ := map_eq_ok.mp hseq
        refine ⟨.of_eq hrows, fun _ => ?_⟩
        rw [takeIndices_eq htake, picked_map, ← hrows]

/-- What the batch holds after `retract_decode`: at each rank the kept requests,
still with their lengths. -/
structure KeepsSplits (infos infos' : List (ScheduleReqsInfo ρ)) (splits : List RetractSplit) :
    Prop where
  kept : ∀ (i : Nat) (info' : ScheduleReqsInfo ρ), infos'[i]? = some info' →
    ∃ info split, infos[i]? = some info ∧
    splits[i]? = some split ∧ info'.reqs.Perm (picked info.reqs split.kept)
  committed : Committed infos'

theorem filterBatch_keepsSplits {batch kept : ScheduleBatch ρ} {splits : List RetractSplit}
    (hranks : RanksRetracted cache cfg 0 batch.reqsInfo m splits m')
    (hlens : Committed batch.reqsInfo)
    (hok : batch.filterBatch (fun _ => none)
      (some fun rank => splits[rank]?.map RetractSplit.kept) = .ok kept) :
    KeepsSplits batch.reqsInfo kept.reqsInfo splits := by
  obtain ⟨infos, hinfos, heq⟩ := bind_eq_ok.mp hok
  cases heq
  have hrank : ∀ (i : Nat) (info' : ScheduleReqsInfo ρ), infos[i]? = some info' →
      ∃ info split, batch.reqsInfo[i]? = some info ∧
      splits[i]? = some split ∧ info'.reqs.Perm (picked info.reqs split.kept) ∧
      (info'.reqs ≠ [] → info'.seqLens = some (info'.reqs.map (·.kvCommittedLen))) := by
    intro i info' hi
    obtain ⟨info, hinfo, hfilter⟩ := forRanks_getElem? hinfos hi
    obtain ⟨split, hsplit, hpart, -⟩ := hranks.fits hinfo
    rw [List.append_assoc] at hpart
    simp only [ScheduleBatch.keptIndices, Nat.zero_add, hsplit, Option.map_some,
      Option.getD_some] at hfilter
    have hkept := filterBatch_kept hpart (hlens info (List.mem_of_getElem? hinfo)) hfilter
    exact ⟨info, split, hinfo, hsplit, hkept⟩
  constructor
  · intro i info' hi
    obtain ⟨info, split, hinfo, hsplit, hperm, -⟩ := hrank i info' hi
    exact ⟨info, split, hinfo, hsplit, hperm⟩
  · intro info' hinfo'
    obtain ⟨i, hi⟩ := List.getElem?_of_mem hinfo'
    obtain ⟨-, -, -, -, -, hcommitted⟩ := hrank i info' hi
    exact hcommitted

theorem KeepsSplits.ready {infos infos' : List (ScheduleReqsInfo ρ)} {splits : List RetractSplit}
    (h : KeepsSplits infos infos' splits) (hranks : RanksRetracted cache cfg 0 infos m splits m') :
    Ready 0 infos' m'.allocator := by
  intro i info' hi
  obtain ⟨info, split, hinfo, hsplit, hperm⟩ := h.kept i info' hi
  obtain ⟨split', hsplit', -, hroom⟩ := hranks.fits hinfo
  obtain rfl : split = split' := Option.some.inj (hsplit.symm.trans hsplit')
  rwa [newTokens_perm _ hperm]

/-- What `retract_decode` promises of its result. -/
structure Retraction (cache : TreeCache τ ρ) (cfg : DecodeConfig ρ) (batch : ScheduleBatch ρ)
    (m : DecodeMem τ ρ) (result : RetractResult τ ρ) (splits : List RetractSplit) : Prop where
  ranks : RanksRetracted cache cfg 0 batch.reqsInfo m splits result.mem
  kept : KeepsSplits batch.reqsInfo result.batch.reqsInfo splits
  retractedReqs : result.retractedReqs =
    (pickedReqs RetractSplit.retracted batch.reqsInfo splits).map resetForRetract
  reqsToAbort : result.reqsToAbort =
    (pickedReqs RetractSplit.aborted batch.reqsInfo splits).map resetForRetract
  released : result.mem.released.Perm (m.released ++
    (pickedReqs RetractSplit.retracted batch.reqsInfo splits ++
      pickedReqs RetractSplit.aborted batch.reqsInfo splits))

theorem retractDecode_retraction {batch : ScheduleBatch ρ} {result : RetractResult τ ρ}
    (hlens : Committed batch.reqsInfo) (hok : cache.retractDecode cfg batch m = .ok result) :
    ∃ splits, Retraction cache cfg batch m result splits := by
  obtain ⟨⟨m₁, splits⟩, hloop, hrest⟩ := bind_eq_ok.mp hok
  obtain ⟨kept, hfilter, heq⟩ := bind_eq_ok.mp hrest
  cases heq
  have hranks := retractRanks_retracted cfg hloop
  have hkept := filterBatch_keepsSplits cfg hranks hlens (mapError_eq_ok.mp hfilter)
  exact ⟨splits, hranks, hkept, rfl, rfl, hranks.released⟩

end TreeCache
end SglJax.Managers
