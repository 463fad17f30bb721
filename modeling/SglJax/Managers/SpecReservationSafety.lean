import SglJax.Managers.DecodeSafety
import SglJax.Managers.SpecReservation

/-! When the check of the decode memory covers what a speculative step reserves. The
check and the reservation count pages; where they count alike no rank runs out, and
where the reservation counts more there are pools that pass the check and do not
serve it. -/
namespace SglJax.MemCache

namespace KvAllocator

variable {a b : KvAllocator} {dpRank : Nat} {out : Option (List Nat)}

/-- The window pool is asked for the same lengths, so for as many pages. -/
theorem newPages_relocated (pageSize : Nat) (batch : List ExtendSeq) (loc : Int → Int) :
    PagedAllocator.newPages pageSize (batch.map fun seq => { seq with lastLoc := loc seq.lastLoc }) =
      PagedAllocator.newPages pageSize batch := by
  unfold PagedAllocator.newPages
  rw [List.map_map]
  rfl

theorem extendLen_relocated (batch : List ExtendSeq) (loc : Int → Int) :
    ((batch.map fun seq => { seq with lastLoc := loc seq.lastLoc }).map ExtendSeq.extendLen).sum =
      (batch.map ExtendSeq.extendLen).sum := by
  rw [List.map_map]
  rfl

theorem served_allocExtendSwa {s s' : SwaAllocator} {batch : List ExtendSeq}
    (hwf : WellFormed (.swa s))
    (heq : s.allocExtend batch (batch.map ExtendSeq.extendLen).sum dpRank = .ok (s', out)) :
    Served dpRank (PagedAllocator.newPages s.full.pageSize batch * s.full.pageSize)
      (.swa s) (.swa s') out := by
  have hpage : s.swa.pageSize = s.full.pageSize := hwf.same_pages s.swa (by simp [pools])
  have hpos : 0 < s.full.pageSize := hwf.page_pos
  obtain ⟨⟨full, fullOut⟩, hf, heq⟩ := bind_eq_ok.mp heq
  have hfull := PoolAllocator.served_allocExtend hpos hf
  cases fullOut with
  | none =>
    cases heq
    exact served_noFull hfull rfl
  | some fullIndices =>
    obtain ⟨⟨swa, swaOut⟩, hw, heq⟩ := bind_eq_ok.mp heq
    rw [← extendLen_relocated batch fun loc => (s.mapAt dpRank loc : Int)] at hw
    have hswa := PoolAllocator.served_allocExtend (hpage ▸ hpos) hw
    rw [newPages_relocated _ _ fun loc => (s.mapAt dpRank loc : Int), hpage] at hswa
    cases swaOut <;> cases heq
    · exact served_rollback hfull hswa _ rfl
    · exact served_both hfull hswa _ _

theorem served_allocExtend {batch : List ExtendSeq} (hwf : WellFormed a)
    (heq : a.allocExtend batch (batch.map ExtendSeq.extendLen).sum dpRank = .ok (b, out)) :
    Served dpRank (PagedAllocator.newPages a.pageSize batch * a.pageSize) a b out := by
  cases a with
  | pool p =>
    obtain ⟨result, hp, hres⟩ := map_eq_ok.mp heq
    cases hres
    exact served_pool (PoolAllocator.served_allocExtend hwf.page_pos hp)
  | swa s =>
    obtain ⟨result, hs, hres⟩ := map_eq_ok.mp heq
    cases hres
    exact served_allocExtendSwa hwf hs

end KvAllocator
end SglJax.MemCache

namespace SglJax.Managers

open Foundation MemCache

variable {cfg : SpecConfig} {τ ρ : Type}

@[simp] theorem pagedLen_one (n : Nat) : pagedLen 1 n = n := by
  unfold pagedLen pagesFor
  simp

theorem pagedLen_mono {pageSize m n : Nat} (h : m ≤ n) : pagedLen pageSize m ≤ pagedLen pageSize n := by
  unfold pagedLen pagesFor
  exact Nat.mul_le_mul_right _ (Nat.div_le_div_right (by omega))

namespace SpecReqsInfo

/-- The tokens in the pages a rank's reservation adds. -/
def tokensReserved (info : SpecReqsInfo cfg ρ) (pageSize : Nat) : Nat :=
  (info.rows.map (SpecRow.tokensReserved pageSize)).sum

theorem newPages_extendSeqs (info : SpecReqsInfo cfg ρ) (table : ReqToToken) (pageSize : Nat) :
    PagedAllocator.newPages pageSize (info.rows.map (SpecRow.extendSeq table)) * pageSize =
      info.tokensReserved pageSize := by
  unfold PagedAllocator.newPages tokensReserved
  rw [List.map_map, ← List.sum_map_mul_right]
  congr 1
  apply List.map_congr_left
  intro row _
  exact Nat.sub_mul _ _ _

theorem extendLen_extendSeqs (info : SpecReqsInfo cfg ρ) (table : ReqToToken) :
    ((info.rows.map (SpecRow.extendSeq table)).map ExtendSeq.extendLen).sum =
      info.extendNumTokens := by
  unfold extendNumTokens
  rw [List.map_map]
  rfl

theorem tokensReserved_page_one (info : SpecReqsInfo cfg ρ) :
    info.tokensReserved 1 = info.extendNumTokens := by
  unfold tokensReserved extendNumTokens SpecRow.tokensReserved
  simp

variable {m : DecodeMem τ ρ} {dpRank : Nat}

theorem serves_allocReserved (cache : TreeCache τ ρ) (info : SpecReqsInfo cfg ρ)
    (hwf : m.allocator.WellFormed)
    (hroom : m.allocator.Room dpRank (info.tokensReserved m.allocator.pageSize)) :
    TreeCache.Serves dpRank m (info.allocReserved cache dpRank m) := by
  unfold allocReserved
  split
  · refine ⟨TreeCache.not_outOfMemory_ok _, ?_⟩
    intro m' slots h
    cases h
    exact .refl _ _
  · split
    · rename_i hone
      rw [hone, tokensReserved_page_one] at hroom
      apply TreeCache.Serves.bind (TreeCache.not_outOfMemory_evict cache _ _ _)
        fun m₁ => TreeCache.evictFromTreeCache_grows
      intro m₁ hgrow
      apply TreeCache.serves_takeSlots fun b out => KvAllocator.served_alloc
      exact hgrow.frees.keeps.room trivial hroom
    · apply TreeCache.Serves.bind (TreeCache.not_outOfMemory_evict cache _ _ _)
        fun m₁ => TreeCache.evictFromTreeCache_grows
      intro m₁ hgrow
      have hkeep := hgrow.frees.keeps
      rw [← extendLen_extendSeqs info m.reqToToken]
      apply TreeCache.serves_takeSlots fun b out =>
        KvAllocator.served_allocExtend (hwf.keeps hkeep)
      rw [hkeep.pageSize, newPages_extendSeqs]
      exact hkeep.room trivial hroom

/-- A rank that has room for its reservation gets it and leaves the others theirs. -/
theorem prepareForDecode_served (cache : TreeCache τ ρ) (info : SpecReqsInfo cfg ρ)
    (hwf : m.allocator.WellFormed)
    (hroom : m.allocator.Room dpRank (info.tokensReserved m.allocator.pageSize)) :
    ¬ TreeCache.OutOfMemory (info.prepareForDecode cache dpRank m) ∧
      ∀ info' m', info.prepareForDecode cache dpRank m = .ok (info', m') →
        m.allocator.Keeps (· ≠ dpRank) m'.allocator := by
  have hserves := serves_allocReserved cache info hwf hroom
  unfold prepareForDecode
  split
  · refine ⟨TreeCache.not_outOfMemory_ok _, ?_⟩
    intro info' m' h
    cases h
    exact .refl _ _
  · constructor
    · intro h
      rcases TreeCache.outOfMemory_bind h with h | ⟨⟨m₁, slots⟩, -, h⟩
      · exact hserves.served h
      · dsimp only at h
        split at h
        · simp [TreeCache.OutOfMemory] at h
        · exact TreeCache.not_outOfMemory_pure _ h
    · intro info' m' h
      obtain ⟨⟨m₁, slots⟩, halloc, hrest⟩ := bind_eq_ok.mp h
      dsimp only at hrest
      split at hrest
      · cases hrest
      · cases hrest
        exact hserves.keeps m₁ slots halloc

end SpecReqsInfo

namespace SpecBatch

variable {m m' : DecodeMem τ ρ} {dpRank : Nat} {batch : SpecBatch cfg ρ}

/-- Every rank has the room its reservation takes. -/
def Ready (dpRank : Nat) (batch : SpecBatch cfg ρ) (a : KvAllocator) : Prop :=
  ∀ i info, batch[i]? = some info → a.Room (dpRank + i) (info.tokensReserved a.pageSize)

theorem Ready.keeps {a b : KvAllocator} {on : Nat → Prop} (h : Ready dpRank batch a)
    (hkeep : a.Keeps on b) (hon : ∀ i, on (dpRank + i)) : Ready dpRank batch b := by
  intro i info hi
  rw [hkeep.pageSize]
  exact hkeep.room (hon i) (h i info hi)

theorem prepareRanks_served (cache : TreeCache τ ρ) (hwf : m.allocator.WellFormed)
    (hready : Ready dpRank batch m.allocator) :
    ¬ TreeCache.OutOfMemory (prepareRanks cache dpRank batch m) := by
  induction batch generalizing dpRank m with
  | nil => exact TreeCache.not_outOfMemory_ok _
  | cons info infos ih =>
    have hrank := info.prepareForDecode_served cache hwf (hready 0 info rfl)
    intro h
    rcases TreeCache.outOfMemory_bind h with h | ⟨⟨info', m₁⟩, hone, h⟩
    · exact hrank.1 h
    · have hkeep := hrank.2 info' m₁ hone
      rcases TreeCache.outOfMemory_bind h with h | ⟨result, -, h⟩
      · apply ih (hwf.keeps hkeep) ?_ h
        intro i info hi
        have hroom := hready (i + 1) info hi
        rw [hkeep.pageSize]
        rw [← Nat.add_assoc, Nat.add_right_comm] at hroom
        exact hkeep.room (by omega) hroom
      · exact TreeCache.not_outOfMemory_pure _ h

theorem prepareForDecode_served (cache : TreeCache τ ρ) (dcfg : DecodeConfig ρ)
    (hwf : m.allocator.WellFormed) (hready : Ready 0 batch m.allocator) :
    ¬ TreeCache.OutOfMemory (batch.prepareForDecode cache dcfg m) := by
  intro h
  rcases TreeCache.outOfMemory_bind h with h | ⟨m₁, hswa, h⟩
  · exact TreeCache.not_outOfMemory_maybeEvictSwa cache dcfg batch.plain m h
  · have hkeep := (TreeCache.maybeEvictSwa_grows hswa).frees.keeps
    exact prepareRanks_served cache (hwf.keeps hkeep) (hready.keeps hkeep fun _ => trivial) h

/-! ### The check -/

theorem mem_requirements {pageSize i : Nat} {info : SpecReqsInfo cfg ρ}
    (hi : batch[i]? = some info) (hne : info.rows ≠ []) :
    (dpRank + i, info.newTokensRequiredNextDecode pageSize) ∈ requirements pageSize dpRank batch := by
  induction batch generalizing dpRank i with
  | nil => cases hi
  | cons head infos ih =>
    unfold requirements
    cases i with
    | zero =>
      cases hi
      rw [if_neg (by simpa using hne)]
      exact List.mem_cons_self
    | succ i =>
      have hmem : (dpRank + 1 + i, info.newTokensRequiredNextDecode pageSize) ∈
          requirements pageSize (dpRank + 1) infos := ih hi
      rw [Nat.add_right_comm, Nat.add_assoc] at hmem
      split
      · exact hmem
      · exact List.mem_cons_of_mem _ hmem

theorem of_mem_requirements {pageSize : Nat} {need : Nat × Nat}
    (h : need ∈ requirements pageSize dpRank batch) :
    ∃ i info, batch[i]? = some info ∧
      need = (dpRank + i, info.newTokensRequiredNextDecode pageSize) := by
  induction batch generalizing dpRank with
  | nil => cases h
  | cons head infos ih =>
    have hlater (h : need ∈ requirements pageSize (dpRank + 1) infos) :
        ∃ i info, (head :: infos)[i]? = some info ∧
          need = (dpRank + i, info.newTokensRequiredNextDecode pageSize) := by
      obtain ⟨i, info, hi, hneed⟩ := ih h
      refine ⟨i + 1, info, hi, ?_⟩
      rw [hneed, Nat.add_right_comm, Nat.add_assoc]
    unfold requirements at h
    split at h
    · exact hlater h
    · rcases List.mem_cons.mp h with h | h
      · exact ⟨0, head, rfl, h⟩
      · exact hlater h

/-- What a check that passes leaves. -/
theorem checkDecodeMem_room {cache : TreeCache τ ρ}
    (hok : batch.checkDecodeMem cache m = .ok (m', true)) :
    m.Grows m' ∧ ∀ i info, batch[i]? = some info →
      m'.allocator.Room i (info.newTokensRequiredNextDecode m.allocator.pageSize) := by
  obtain ⟨m₁, hevict, hres⟩ := bind_eq_ok.mp hok
  obtain ⟨hm, hfits⟩ : m₁ = m' ∧ isAvailableSizeSufficient m₁.allocator
      (batch.requirements m.allocator.pageSize 0) = true := by
    simpa [pure, Except.pure] using hres
  subst hm
  refine ⟨TreeCache.evictTreeCacheIfNeeded_grows hevict, ?_⟩
  intro i info hi
  by_cases hne : info.rows = []
  · simp [SpecReqsInfo.newTokensRequiredNextDecode, hne]
  · have hmem : (0 + i, info.newTokensRequiredNextDecode m.allocator.pageSize) ∈
        batch.requirements m.allocator.pageSize 0 := mem_requirements hi hne
    rw [Nat.zero_add] at hmem
    exact isAvailableSizeSufficient_iff.mp hfits _ hmem

/-- A check that passes is enough: whatever cache and whatever pools with pages of this
size the scheduler has, the step after it does not run out of memory. -/
def CheckSuffices (pageSize : Nat) (batch : SpecBatch cfg ρ) : Prop :=
  ∀ (τ : Type) (cache : TreeCache τ ρ) (dcfg : DecodeConfig ρ) (m m' : DecodeMem τ ρ),
    m.allocator.WellFormed → m.allocator.pageSize = pageSize →
    batch.checkDecodeMem cache m = .ok (m', true) →
    ¬ TreeCache.OutOfMemory (batch.prepareForDecode cache dcfg m')

theorem checkSuffices_of_le {pageSize : Nat} (hcover : ∀ info ∈ batch,
    info.tokensReserved pageSize ≤ info.newTokensRequiredNextDecode pageSize) :
    CheckSuffices pageSize batch := by
  intro τ cache dcfg m m' hwf hpage hok
  obtain ⟨hgrows, hroom⟩ := checkDecodeMem_room hok
  have hkeep := hgrows.frees.keeps
  apply prepareForDecode_served cache dcfg (hwf.keeps hkeep)
  intro i info hi p hp
  have hhas := hroom i info hi p hp
  rw [hpage] at hhas
  rw [Nat.zero_add, hkeep.pageSize, hpage]
  exact (hcover info (List.mem_of_getElem? hi)).trans hhas

end SpecBatch

/-! ### Pools that are just large enough for the check -/

theorem TreeCache.outOfMemory_of_left {α β : Type} {x : Except DecodeError α}
    {g : α → Except DecodeError β} (h : OutOfMemory x) : OutOfMemory (x >>= g) := by
  rcases h with rfl | rfl
  · exact .inl rfl
  · exact .inr rfl

/-- What a pool answers to a reservation of `need` tokens that hands out `extend`
slots. -/
structure Answers (p : PoolAllocator) (rank need extend : Nat) (q : PoolAllocator)
    (out : Option (List Nat)) : Prop where
  none : out = none → PoolAllocator.Takes p rank [] q
  some : ∀ slots, out = some slots → slots.length = extend ∧ need ≤ p.availableSize rank ∧
    ∃ pages, PoolAllocator.Takes p rank pages q

theorem PoolAllocator.Takes.le_availableSize {p q : PoolAllocator} {rank : Nat} {pages : List Nat}
    (h : PoolAllocator.Takes p rank pages q) : pages.length * p.pageSize ≤ p.availableSize rank := by
  have hlen := h.here.length_eq
  rw [List.length_append] at hlen
  rw [PoolAllocator.availableSize_eq]
  exact Nat.mul_le_mul_right _ (by omega)

theorem answers_alloc {p : PoolAllocator} (hone : p.pageSize = 1) (need rank : Nat) :
    ∃ q out, p.alloc need rank = .ok (q, out) ∧ Answers p rank need need q out := by
  have hanswer : ∃ q out, p.alloc need rank = .ok (q, out) := by
    cases p with
    | token a => exact ⟨_, _, rfl⟩
    | paged a =>
      have hone : a.pageSize = 1 := hone
      unfold PoolAllocator.alloc PagedAllocator.alloc
      dsimp only
      rw [if_neg (not_not.mpr (by rw [hone, Nat.mod_one]))]
      split
      · exact ⟨_, _, rfl⟩
      · exact ⟨_, _, rfl⟩
  obtain ⟨q, out, heq⟩ := hanswer
  refine ⟨q, out, heq, ?_⟩
  rcases PoolAllocator.alloc_cases (by omega) heq with ⟨rfl, takes⟩ | ⟨pages, rfl, hlen, takes⟩
  · exact ⟨fun _ => takes, fun slots h => by cases h⟩
  · refine ⟨fun h => by (cases h), ?_⟩
    intro slots h
    cases h
    refine ⟨?_, hlen ▸ PoolAllocator.Takes.le_availableSize takes, pages, takes⟩
    rw [length_flatMap_pageSlots, hlen]

theorem answers_allocExtend {p : PoolAllocator} (hpos : 0 < p.pageSize) (hpaged : p.pageSize ≠ 1)
    (seqs : List ExtendSeq) (rank : Nat) :
    ∃ q out, p.allocExtend seqs (seqs.map ExtendSeq.extendLen).sum rank = .ok (q, out) ∧
      Answers p rank (PagedAllocator.newPages p.pageSize seqs * p.pageSize)
        (seqs.map ExtendSeq.extendLen).sum q out := by
  cases p with
  | token a => exact absurd rfl hpaged
  | paged a =>
    have hanswer : ∃ q out,
        (PoolAllocator.paged a).allocExtend seqs (seqs.map ExtendSeq.extendLen).sum rank =
          .ok (q, out) := by
      unfold PoolAllocator.allocExtend
      dsimp only
      rcases a.allocExtend_cases rank hpos seqs with ⟨-, hcase⟩ | ⟨-, -, hcase⟩
      · rw [hcase]
        exact ⟨_, _, rfl⟩
      · rw [hcase]
        exact ⟨_, _, rfl⟩
    obtain ⟨q, out, heq⟩ := hanswer
    refine ⟨q, out, heq, ?_⟩
    rcases PoolAllocator.allocExtend_cases hpos heq with ⟨rfl, takes⟩ | ⟨pages, rfl, hlen, takes⟩
    · exact ⟨fun _ => takes, fun slots h => by cases h⟩
    · refine ⟨fun h => by (cases h), ?_⟩
      intro slots h
      cases h
      refine ⟨length_batchSlots hpos seqs hlen.ge, ?_, pages, takes⟩
      rw [← hlen]
      exact PoolAllocator.Takes.le_availableSize takes

namespace SpecReqsInfo

variable {m : DecodeMem τ ρ} {p : PoolAllocator} {dpRank : Nat} {cache : TreeCache τ ρ}

/-- Without eviction a reservation is what the pool answers. -/
theorem allocReserved_eq (hchunk : cache.kind = .chunk) (hpool : m.allocator = .pool p)
    (hpos : 0 < p.pageSize) (info : SpecReqsInfo cfg ρ)
    (hasks : ¬ (cfg.algorithm = .dflash ∧ info.extendNumTokens = 0)) :
    ∃ q out, Answers p dpRank (info.tokensReserved p.pageSize) info.extendNumTokens q out ∧
      info.allocReserved cache dpRank m = TreeCache.takeSlots m (.ok (.pool q, out)) := by
  have hsize : m.allocator.pageSize = p.pageSize := by
    rw [hpool]
    rfl
  unfold allocReserved
  rw [if_neg hasks, hsize]
  split
  · rename_i hone
    obtain ⟨q, out, heq, hanswers⟩ := answers_alloc hone info.extendNumTokens dpRank
    rw [hone, tokensReserved_page_one]
    refine ⟨q, out, hanswers, ?_⟩
    unfold TreeCache.allocTokenSlots TreeCache.evictFromTreeCache
    rw [if_pos hchunk, ok_bind, hpool]
    show TreeCache.takeSlots m ((p.alloc _ _).map _) = _
    rw [heq]
    rfl
  · rename_i hpaged
    obtain ⟨q, out, heq, hanswers⟩ := answers_allocExtend hpos hpaged
      (info.rows.map (SpecRow.extendSeq m.reqToToken)) dpRank
    rw [newPages_extendSeqs, extendLen_extendSeqs] at hanswers
    refine ⟨q, out, hanswers, ?_⟩
    unfold TreeCache.allocPagedTokenSlotsExtend TreeCache.evictFromTreeCache
    dsimp only
    rw [if_pos hchunk, ok_bind, hpool]
    show TreeCache.takeSlots m ((p.allocExtend _ _ _).map _) = _
    rw [extendLen_extendSeqs] at heq
    rw [heq]
    rfl

theorem tokensReserved_of_extend_zero {info : SpecReqsInfo cfg ρ} (h : info.extendNumTokens = 0)
    (pageSize : Nat) : info.tokensReserved pageSize = 0 := by
  unfold extendNumTokens at h
  unfold tokensReserved
  rw [List.sum_eq_zero_iff] at h ⊢
  intro n hn
  obtain ⟨row, hrow, rfl⟩ := List.mem_map.mp hn
  have hstill := h _ (List.mem_map_of_mem hrow)
  have hle := row.oldLen_le_newLen
  have hsame : row.newLen = row.oldLen := by omega
  rw [SpecRow.tokensReserved, hsame, Nat.sub_self]

/-- A rank without eviction is out of memory, or the pool had what it reserves and the
other ranks keep what they have. -/
theorem prepareForDecode_cases (hchunk : cache.kind = .chunk) (hpool : m.allocator = .pool p)
    (hpos : 0 < p.pageSize) (info : SpecReqsInfo cfg ρ) :
    TreeCache.OutOfMemory (info.prepareForDecode cache dpRank m) ∨
      info.tokensReserved p.pageSize ≤ p.availableSize dpRank ∧
        ∃ info' m' q pages, info.prepareForDecode cache dpRank m = .ok (info', m') ∧
          m'.allocator = .pool q ∧ PoolAllocator.Takes p dpRank pages q := by
  have hrefl : PoolAllocator.Takes p dpRank [] p := ⟨.refl p, .refl _, fun _ _ => .refl _⟩
  unfold prepareForDecode
  split
  · rename_i hnone
    have hrows : info.rows = [] := by simpa using hnone
    right
    refine ⟨?_, info, m, p, [], rfl, hpool, hrefl⟩
    unfold tokensReserved
    simp [hrows]
  · by_cases hidle : cfg.algorithm = .dflash ∧ info.extendNumTokens = 0
    · have halloc : info.allocReserved cache dpRank m = .ok (m, []) := by
        unfold allocReserved
        rw [if_pos hidle]
      rw [halloc, ok_bind]
      dsimp only
      rw [if_neg (by rw [hidle.2]; exact not_not.mpr rfl)]
      right
      rw [tokensReserved_of_extend_zero hidle.2]
      exact ⟨Nat.zero_le _, _, _, p, [], rfl, hpool, hrefl⟩
    · obtain ⟨q, out, hanswers, halloc⟩ := allocReserved_eq hchunk hpool hpos info hidle
      rw [halloc]
      cases out with
      | none => exact .inl (.inl rfl)
      | some slots =>
        obtain ⟨hlen, hroom, pages, takes⟩ := hanswers.some slots rfl
        have htook : TreeCache.takeSlots m (.ok (.pool q, some slots)) =
            .ok ({ m with allocator := .pool q }, slots) := rfl
        rw [htook, ok_bind]
        dsimp only
        rw [if_neg (not_not.mpr hlen)]
        exact .inr ⟨hroom, _, _, q, pages, rfl, rfl, takes⟩

end SpecReqsInfo

namespace SpecBatch

variable {m : DecodeMem τ ρ} {p : PoolAllocator} {dpRank : Nat} {cache : TreeCache τ ρ}

theorem prepareRanks_outOfMemory (hchunk : cache.kind = .chunk) (hpool : m.allocator = .pool p)
    (hpos : 0 < p.pageSize) {batch : SpecBatch cfg ρ} {i : Nat} {info : SpecReqsInfo cfg ρ}
    (hi : batch[i]? = some info)
    (hshort : p.availableSize (dpRank + i) < info.tokensReserved p.pageSize) :
    TreeCache.OutOfMemory (prepareRanks cache dpRank batch m) := by
  induction batch generalizing dpRank m p i with
  | nil => cases hi
  | cons head infos ih =>
    unfold prepareRanks
    rcases head.prepareForDecode_cases hchunk hpool hpos with hout | ⟨hroom, head', m', q, pages,
      hok, hpool', takes⟩
    · exact TreeCache.outOfMemory_of_left hout
    · cases i with
      | zero =>
        cases hi
        rw [Nat.add_zero] at hshort
        omega
      | succ i =>
        rw [hok, ok_bind]
        have hsize := takes.settings.pageSize
        apply TreeCache.outOfMemory_of_left
        apply ih hpool' (hsize ▸ hpos) hi
        have hsame : q.availableSize (dpRank + 1 + i) = p.availableSize (dpRank + 1 + i) := by
          rw [PoolAllocator.availableSize_eq, PoolAllocator.availableSize_eq, hsize,
            (takes.elsewhere _ (by omega)).length_eq]
        rw [hsame, hsize, Nat.add_assoc, Nat.add_comm 1 i]
        exact hshort

end SpecBatch
end SglJax.Managers
