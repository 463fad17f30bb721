import SglJax.Managers.PrefillSafety

/-! What was reserved is found: a rank of `prepare_for_extend` evicts until its pages
are free, takes them, and leaves the budgets of the other ranks alone. -/
namespace SglJax.Managers

open MemCache

variable {τ R Λ ρ : Type}

/-! ### The pages of a batch -/

section Pages

variable {pageSize : Nat}

theorem pagesFor_add_le (hpage : 0 < pageSize) (m n : Nat) :
    pagesFor pageSize (m + n) ≤ pagesFor pageSize m + pagesFor pageSize n := by
  have hm := le_pagesFor_mul hpage m
  have hn := le_pagesFor_mul hpage n
  rw [← pagesFor_mul hpage (pagesFor pageSize m + pagesFor pageSize n)]
  apply pagesFor_mono hpage
  rw [Nat.add_mul]
  omega

theorem ceilPagedTokens_natCast (hpage : 0 < pageSize) (n : Nat) :
    ceilPagedTokens pageSize n = (pagesFor pageSize n * pageSize : Nat) := by
  apply le_antisymm
  · apply ceilPagedTokens_le hpage
    · rw [Int.natCast_dvd_natCast]
      exact Nat.dvd_mul_left _ _
    · rw [Int.ofNat_le]
      exact le_pagesFor_mul hpage n
  · have hle := le_ceilPagedTokens hpage n
    obtain ⟨k, hk⟩ := dvd_ceilPagedTokens pageSize n
    rw [hk] at hle ⊢
    have hpos : 0 ≤ k := by
      by_contra hneg
      have hmul := Int.mul_neg_of_pos_of_neg (by omega : (0 : Int) < pageSize) (by omega : k < 0)
      omega
    obtain ⟨j, rfl⟩ := Int.eq_ofNat_of_zero_le hpos
    have hmono := pagesFor_mono hpage (m := n) (n := j * pageSize) (by
      rw [Nat.mul_comm]
      exact_mod_cast hle)
    rw [pagesFor_mul hpage] at hmono
    rw [← Int.natCast_mul, Int.ofNat_le, Nat.mul_comm pageSize]
    exact Nat.mul_le_mul_right _ hmono

end Pages

/-- The pages that whole requests of these lengths take. -/
def pagesNeeded (pageSize : Nat) (reqs : List (WaitingReq R)) : Nat :=
  (reqs.map fun req => pagesFor pageSize req.extendInputLen.toNat).sum

section Batch

variable {pageSize : Nat} {reqs : List (WaitingReq R)} {rows : List (Nat × WaitingReq R)}

theorem sum_ceilPagedTokens (hpage : 0 < pageSize)
    (hruns : ∀ req ∈ reqs, PrefillAdder.Runs req) :
    (reqs.map fun req => ceilPagedTokens pageSize req.extendInputLen).sum =
      (pagesNeeded pageSize reqs * pageSize : Nat) := by
  induction reqs with
  | nil => simp [pagesNeeded]
  | cons req reqs ih =>
    have hpos := (hruns req List.mem_cons_self).1
    have hrest := ih fun r hr => hruns r (List.mem_cons_of_mem _ hr)
    unfold pagesNeeded at hrest ⊢
    simp only [List.map_cons, List.sum_cons]
    rw [hrest, Nat.add_mul, Nat.cast_add, ← ceilPagedTokens_natCast hpage, Int.toNat_of_nonneg hpos]

theorem extendNumTokens_eq (hruns : ∀ req ∈ reqs, PrefillAdder.Runs req) :
    extendNumTokens reqs = (reqs.map fun req => req.extendInputLen.toNat).sum := by
  have hsum : (reqs.map WaitingReq.extendInputLen).sum =
      ((reqs.map fun req => req.extendInputLen.toNat).sum : Nat) := by
    induction reqs with
    | nil => rfl
    | cons req reqs ih =>
      have hpos := (hruns req List.mem_cons_self).1
      simp only [List.map_cons, List.sum_cons]
      rw [ih fun r hr => hruns r (List.mem_cons_of_mem _ hr)]
      omega
  rw [extendNumTokens, hsum, Int.toNat_natCast]

theorem extendNumTokens_bounds (hpage : 0 < pageSize)
    (hruns : ∀ req ∈ reqs, PrefillAdder.Runs req) :
    extendNumTokens reqs ≤ pagesNeeded pageSize reqs * pageSize ∧
      pagesNeeded pageSize reqs * pageSize ≤ extendNumTokens reqs + reqs.length * pageSize := by
  rw [extendNumTokens_eq hruns]
  unfold pagesNeeded
  clear hruns
  induction reqs with
  | nil => simp
  | cons req reqs ih =>
    have hle := le_pagesFor_mul hpage req.extendInputLen.toNat
    have hlt := pagesFor_mul_lt hpage req.extendInputLen.toNat
    simp only [List.map_cons, List.sum_cons, List.length_cons, Nat.add_mul, Nat.one_mul]
    omega

theorem extendLen_extendSeqs (table : ReqToToken)
    (hruns : ∀ row ∈ rows, PrefillAdder.Runs row.2) :
    ((extendSeqs table rows).map ExtendSeq.extendLen).sum = extendNumTokens (rows.map Prod.snd) := by
  rw [extendNumTokens_eq (by simpa using fun req idx h => hruns (idx, req) h)]
  unfold extendSeqs
  rw [List.map_map, List.map_map]
  congr 1
  apply List.map_congr_left
  intro row hrow
  obtain ⟨hpos, hle⟩ := hruns row hrow
  dsimp only [Function.comp_apply, ExtendSeq.extendLen, WaitingReq.prefixLen]
  omega

/-- A request needs no more pages than one that begins a page of its own. -/
theorem newPages_extendSeqs (hpage : 0 < pageSize) (table : ReqToToken)
    (hruns : ∀ row ∈ rows, PrefillAdder.Runs row.2) :
    PagedAllocator.newPages pageSize (extendSeqs table rows) ≤
      pagesNeeded pageSize (rows.map Prod.snd) := by
  unfold PagedAllocator.newPages pagesNeeded extendSeqs
  rw [List.map_map, List.map_map]
  apply List.sum_le_sum
  intro row hrow
  obtain ⟨hpos, hle⟩ := hruns row hrow
  have hsplit := pagesFor_add_le hpage row.2.prefixLen row.2.extendInputLen.toNat
  have hwhole : row.2.prefixLen + row.2.extendInputLen.toNat = row.2.fillIds.length := by
    unfold WaitingReq.prefixLen
    omega
  rw [hwhole] at hsplit
  dsimp only [Function.comp_apply]
  omega

theorem takeReqSlots_eq {freeSlots rest taken : List Nat} {needSize : Nat}
    (hok : takeReqSlots freeSlots needSize = .ok (taken, rest)) : taken.length = needSize := by
  unfold takeReqSlots at hok
  split at hok
  · cases hok
  · cases hok
    rw [List.length_take]
    omega

theorem takeReqSlots_memory (freeSlots : List Nat) (needSize : Nat) :
    ¬ TreeCache.OutOfMemory (takeReqSlots freeSlots needSize) := by
  unfold takeReqSlots
  split
  · simp [TreeCache.OutOfMemory]
  · simp

end Batch

/-! ### One allocation -/

/-- The pools are sound, with one pool for all layers. -/
structure Usable (cache : PrefillCache τ R Λ ρ) (held : List (Nat × R)) (m : DecodeMem τ ρ)
    (p : PoolAllocator) : Prop where
  allocator : m.allocator = .pool p
  sound : cache.Sound m.tree p held

/-- What the other ranks keep. -/
structure Spares (cache : PrefillCache τ R Λ ρ) (held : List (Nat × R)) (dpRank : Nat)
    (m m' : DecodeMem τ ρ) (p q : PoolAllocator) : Prop where
  usable : Usable cache held m' q
  pageSize : q.pageSize = p.pageSize
  others : ∀ r, r ≠ dpRank →
    cache.admission.budget m'.tree q r = cache.admission.budget m.tree p r

section Allocation

open TreeCache

variable {cache : PrefillCache τ R Λ ρ} {held : List (Nat × R)} {m m' m'' : DecodeMem τ ρ}
  {p q q' : PoolAllocator} {dpRank numTokens need : Nat}

theorem Spares.refl (h : Usable cache held m p) : Spares cache held dpRank m m p p :=
  ⟨h, rfl, fun _ _ => rfl⟩

theorem Spares.trans (h : Spares cache held dpRank m m' p q)
    (h' : Spares cache held dpRank m' m'' q q') : Spares cache held dpRank m m'' p q' where
  usable := h'.usable
  pageSize := h'.pageSize.trans h.pageSize
  others r hr := (h'.others r hr).trans (h.others r hr)

/-- An eviction frees what was asked for, or all that the rank can get. -/
theorem Usable.evictFromTreeCache (h : Usable cache held m p) (numTokens dpRank : Nat) :
    ∃ m' q, cache.evictFromTreeCache numTokens dpRank m = .ok m' ∧
      Spares cache held dpRank m m' p q ∧
      min (numTokens : Int) (cache.admission.budget m.tree p dpRank) ≤ q.availableSize dpRank := by
  unfold TreeCache.evictFromTreeCache
  by_cases hkind : cache.kind = .chunk
  · rw [if_pos hkind]
    refine ⟨m, p, rfl, .refl h, ?_⟩
    rw [AdmissionCache.budget, cache.chunk_empty hkind]
    omega
  · rw [if_neg hkind, h.allocator]
    unfold evictParams
    dsimp only
    by_cases hshort : p.availableSize dpRank < numTokens
    · obtain ⟨t, q, hevict, hpage, hsound, hbudget, henough⟩ :=
        cache.evict_sound h.sound numTokens dpRank hkind
      rw [if_pos hshort]
      dsimp only
      rw [hevict]
      exact ⟨{ m with tree := t, allocator := .pool q }, q, rfl,
        ⟨⟨rfl, hsound⟩, hpage, fun r _ => hbudget r⟩, henough⟩
    · rw [if_neg hshort]
      refine ⟨m, p, rfl, .refl h, ?_⟩
      omega

/-- The allocator has the slots, and takes them from no other rank. -/
theorem Usable.takeSlots {result : Except AllocError (PoolAllocator × Option (List Nat))}
    (h : Usable cache held m p)
    (htakes : ∀ b out, result = .ok (b, out) → ∃ pages, PoolAllocator.Takes p dpRank pages b)
    (hserved : ∀ b out, result = .ok (b, out) → PoolAllocator.Served dpRank need p b out)
    (hroom : need ≤ p.availableSize dpRank) :
    ¬ OutOfMemory (TreeCache.takeSlots m (result.map (Prod.map .pool id))) ∧
      ∀ m' slots, TreeCache.takeSlots m (result.map (Prod.map .pool id)) = .ok (m', slots) →
        ∃ q, Spares cache held dpRank m m' p q := by
  cases result with
  | error e => exact ⟨by simp [TreeCache.takeSlots, Except.map, Except.mapError, OutOfMemory, bind,
      Except.bind], fun m' slots hok => nomatch hok⟩
  | ok found =>
    obtain ⟨q, out⟩ := found
    obtain ⟨pages, takes⟩ := htakes q out rfl
    cases out with
    | none =>
      have hfew := (hserved q none rfl).none rfl
      omega
    | some slots =>
      constructor
      · exact not_outOfMemory_ok (α := DecodeMem τ ρ × List Nat) _
      · intro m' slots' hok
        cases hok
        refine ⟨q, ⟨rfl, cache.sound_take h.sound takes⟩, takes.settings.pageSize, ?_⟩
        intro r hr
        unfold AdmissionCache.budget
        rw [PoolAllocator.availableSize_eq, PoolAllocator.availableSize_eq,
          takes.settings.pageSize, (takes.elsewhere r hr).length_eq]

/-- What a rank was promised: the whole pages of its requests. -/
def Promised (cache : PrefillCache τ R Λ ρ) (tree : τ) (p : PoolAllocator) (dpRank : Nat)
    (reqs : List (WaitingReq R)) : Prop :=
  (∀ req ∈ reqs, PrefillAdder.Runs req) ∧
    ((pagesNeeded p.pageSize reqs * p.pageSize : Nat) : Int) ≤ cache.admission.budget tree p dpRank

theorem Usable.allocTokenSlots (h : Usable cache held m p)
    (hroom : (numTokens : Int) ≤ cache.admission.budget m.tree p dpRank) :
    ¬ OutOfMemory (cache.allocTokenSlots numTokens dpRank m) ∧
      ∀ m' slots, cache.allocTokenSlots numTokens dpRank m = .ok (m', slots) →
        ∃ q, Spares cache held dpRank m m' p q := by
  obtain ⟨m₁, q₁, hevict, hspares, henough⟩ := h.evictFromTreeCache numTokens dpRank
  have husable := hspares.usable
  have hpos := cache.page_pos husable.sound
  have hcall : m₁.allocator.alloc numTokens dpRank =
      (q₁.alloc numTokens dpRank).map (Prod.map .pool id) := by
    rw [husable.allocator]
    rfl
  have htakes (b : PoolAllocator) (out : Option (List Nat))
      (hok : q₁.alloc numTokens dpRank = .ok (b, out)) :
      ∃ pages, PoolAllocator.Takes q₁ dpRank pages b := by
    rcases PoolAllocator.alloc_cases hpos hok with ⟨-, takes⟩ | ⟨pages, -, -, takes⟩
    · exact ⟨_, takes⟩
    · exact ⟨_, takes⟩
  obtain ⟨hserved, hkept⟩ := husable.takeSlots htakes
    (fun b out => PoolAllocator.served_alloc) (by omega)
  unfold TreeCache.allocTokenSlots
  rw [hevict]
  dsimp only [bind, Except.bind]
  rw [hcall]
  refine ⟨hserved, ?_⟩
  intro m' slots hok
  obtain ⟨q, hmore⟩ := hkept m' slots hok
  exact ⟨q, hspares.trans hmore⟩

theorem Usable.allocPagedTokenSlotsExtend {rows : List (Nat × WaitingReq R)} (table : ReqToToken)
    (h : Usable cache held m p) (hpromise : Promised cache m.tree p dpRank (rows.map Prod.snd)) :
    let x := cache.allocPagedTokenSlotsExtend (extendSeqs table rows)
      (extendNumTokens (rows.map Prod.snd)) dpRank m
    ¬ OutOfMemory x ∧ ∀ m' slots, x = .ok (m', slots) → ∃ q, Spares cache held dpRank m m' p q := by
  obtain ⟨hruns, hfits⟩ := hpromise
  have hpos := cache.page_pos h.sound
  obtain ⟨-, hasked⟩ := extendNumTokens_bounds hpos hruns
  obtain ⟨m₁, q₁, hevict, hspares, henough⟩ := h.evictFromTreeCache
    (extendNumTokens (rows.map Prod.snd) + (extendSeqs table rows).length * m.allocator.pageSize)
    dpRank
  have husable := hspares.usable
  have hpage : m.allocator.pageSize = p.pageSize := by
    rw [h.allocator]
    rfl
  have hrows : ∀ row ∈ rows, PrefillAdder.Runs row.2 := fun row hrow =>
    hruns row.2 (List.mem_map_of_mem hrow)
  have hpages := Nat.mul_le_mul_right q₁.pageSize
    (newPages_extendSeqs (hspares.pageSize ▸ hpos) table hrows)
  rw [hpage] at henough
  rw [hspares.pageSize] at hpages
  have hlen : (extendSeqs table rows).length = rows.length := by simp [extendSeqs]
  rw [List.length_map] at hasked
  have hroom : PagedAllocator.newPages q₁.pageSize (extendSeqs table rows) * q₁.pageSize ≤
      q₁.availableSize dpRank := by
    rw [hspares.pageSize]
    rw [hlen] at henough
    omega
  have hcall : m₁.allocator.allocExtend (extendSeqs table rows)
      (extendNumTokens (rows.map Prod.snd)) dpRank =
      (q₁.allocExtend (extendSeqs table rows)
        ((extendSeqs table rows).map ExtendSeq.extendLen).sum dpRank).map
          (Prod.map .pool id) := by
    rw [husable.allocator, extendLen_extendSeqs table hrows]
    rfl
  have hpos₁ := cache.page_pos husable.sound
  have htakes (b : PoolAllocator) (out : Option (List Nat))
      (hok : q₁.allocExtend (extendSeqs table rows)
        ((extendSeqs table rows).map ExtendSeq.extendLen).sum dpRank = .ok (b, out)) :
      ∃ pages, PoolAllocator.Takes q₁ dpRank pages b := by
    rcases PoolAllocator.allocExtend_cases hpos₁ hok with ⟨-, takes⟩ | ⟨pages, -, -, takes⟩
    · exact ⟨_, takes⟩
    · exact ⟨_, takes⟩
  obtain ⟨hserved, hkept⟩ := husable.takeSlots htakes
    (fun b out => PoolAllocator.served_allocExtend hpos₁) hroom
  unfold TreeCache.allocPagedTokenSlotsExtend
  dsimp only
  rw [hevict]
  dsimp only [bind, Except.bind]
  rw [hcall]
  refine ⟨hserved, ?_⟩
  intro m' slots hok
  obtain ⟨q, hmore⟩ := hkept m' slots hok
  exact ⟨q, hspares.trans hmore⟩

/-! ### Rank by rank -/

theorem Usable.allocExtendSlots {rows : List (Nat × WaitingReq R)} (h : Usable cache held m p)
    (hpromise : Promised cache m.tree p dpRank (rows.map Prod.snd)) :
    ¬ OutOfMemory (cache.allocExtendSlots dpRank rows m) ∧
      ∀ m' slots, cache.allocExtendSlots dpRank rows m = .ok (m', slots) →
        ∃ q, Spares cache held dpRank m m' p q := by
  have hpos := cache.page_pos h.sound
  obtain ⟨hfew, -⟩ := extendNumTokens_bounds hpos hpromise.1
  have hfits := hpromise.2
  unfold TreeCache.allocExtendSlots
  dsimp only
  split
  · exact h.allocTokenSlots (by omega)
  · exact h.allocPagedTokenSlotsExtend _ hpromise

theorem extendRank_served {reqs : List (WaitingReq R)} {m : ExtendMem τ ρ}
    (h : Usable cache held m.toDecodeMem p) (hpromise : Promised cache m.tree p dpRank reqs) :
    ¬ OutOfMemory (cache.extendRank dpRank reqs m) ∧
      ∀ info m', cache.extendRank dpRank reqs m = .ok (info, m') →
        ∃ q, Spares cache held dpRank m.toDecodeMem m'.toDecodeMem p q := by
  unfold TreeCache.extendRank
  split
  · refine ⟨not_outOfMemory_ok _, ?_⟩
    intro info m' hok
    cases hok
    exact ⟨p, .refl h⟩
  · have hstart (taken : List Nat) : Usable cache held { m.toDecodeMem with
        reqToToken := writePrefixes m.reqToToken (taken.zip reqs) } p := ⟨h.allocator, h.sound⟩
    have hzip (taken : List Nat) (hlen : taken.length = reqs.length) :
        (taken.zip reqs).map Prod.snd = reqs := List.map_snd_zip hlen.ge
    constructor
    · intro hout
      rcases outOfMemory_bind hout with hout | ⟨⟨taken, freeSlots⟩, htake, hout⟩
      · exact takeReqSlots_memory _ _ hout
      · rcases outOfMemory_bind hout with hout | ⟨⟨m₁, slots⟩, -, hout⟩
        · refine ((hstart taken).allocExtendSlots ?_).1 hout
          rw [hzip taken (takeReqSlots_eq htake)]
          exact hpromise
        · exact not_outOfMemory_pure _ hout
    · intro info m' hok
      obtain ⟨⟨taken, freeSlots⟩, htake, hrest⟩ := bind_eq_ok.mp hok
      obtain ⟨⟨m₁, slots⟩, halloc, heq⟩ := bind_eq_ok.mp hrest
      cases heq
      obtain ⟨q, hspares⟩ := ((hstart taken).allocExtendSlots (by
        rw [hzip taken (takeReqSlots_eq htake)]
        exact hpromise)).2 m₁ slots halloc
      exact ⟨q, ⟨hspares.usable.allocator, hspares.usable.sound⟩, hspares.pageSize, hspares.others⟩

theorem extendRanks_served {ranks : List (List (WaitingReq R))} {m : ExtendMem τ ρ}
    (h : Usable cache held m.toDecodeMem p)
    (hpromise : ∀ i reqs, ranks[i]? = some reqs → Promised cache m.tree p (dpRank + i) reqs) :
    ¬ OutOfMemory (cache.extendRanks dpRank ranks m) := by
  induction ranks generalizing dpRank m p with
  | nil => exact not_outOfMemory_ok _
  | cons reqs ranks ih =>
    have hrank := extendRank_served h (hpromise 0 reqs rfl)
    intro hout
    unfold TreeCache.extendRanks at hout
    rcases outOfMemory_bind hout with hout | ⟨⟨info, m₁⟩, hok, hout⟩
    · exact hrank.1 hout
    · obtain ⟨q, hspares⟩ := hrank.2 info m₁ hok
      rcases outOfMemory_bind hout with hout | ⟨⟨infos, m₂⟩, -, hout⟩
      · refine ih hspares.usable ?_ hout
        intro i reqs' hi
        obtain ⟨hruns, hfits⟩ := hpromise (i + 1) reqs' hi
        refine ⟨hruns, ?_⟩
        rw [hspares.pageSize, hspares.others _ (by omega), Nat.add_right_comm, Nat.add_assoc]
        exact hfits
      · exact not_outOfMemory_pure _ hout

end Allocation

namespace PrefillAdder

variable {cache : PrefillCache τ R Λ ρ} {a : PrefillAdder τ R} {p : PoolAllocator}
  {held : List (Nat × R)}

theorem Reserved.promised (h : Reserved cache a p held) (rank : Nat) :
    Promised cache a.tree p rank (a.canRunList rank) := by
  have hpos := cache.page_pos h.sound
  have hfits := h.fits rank
  rw [PrefillAdder.tokensNeeded, h.pageSize, sum_ceilPagedTokens hpos (h.runs rank)] at hfits
  exact ⟨h.runs rank, hfits⟩

/-- The batch of the admitted requests finds its memory. -/
theorem Reserved.served (h : Reserved cache a p held) (table : ReqToToken)
    (freeSlots : List Nat) :
    ¬ TreeCache.OutOfMemory
      (cache.prepareForExtend a.admitted (a.extendMem (ρ := ρ) table freeSlots)) := by
  apply extendRanks_served (p := p) ⟨h.allocator, h.sound⟩
  intro i reqs hi
  rw [Nat.zero_add]
  unfold PrefillAdder.admitted at hi
  rw [List.getElem?_map, Option.map_eq_some_iff] at hi
  obtain ⟨rank, hrank, rfl⟩ := hi
  have hlt := (List.getElem?_eq_some_iff.mp hrank).1
  rw [List.getElem?_range (by simpa using hlt), Option.some.injEq] at hrank
  subst hrank
  exact h.promised i

end PrefillAdder
end SglJax.Managers
