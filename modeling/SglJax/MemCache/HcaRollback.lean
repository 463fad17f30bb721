import SglJax.MemCache.HcaOwnership

/-! `alloc` takes a window for every new request. When a window or the reset of the
recurrent state fails, what was taken goes back. -/
namespace SglJax.MemCache.Hca

variable {pool : Pool} {reqs : Requests} {a b : Allocator} {pending : Set Nat}
  {W C : Nat → Nat → List Nat} {requests : List Nat} {r i : Nat}

theorem laid_nil_iff {pageSize : Nat} (hpage : 0 < pageSize) {pages : List Nat} :
    Laid pageSize [] pages ↔ pages = [] := by
  constructor
  · intro h
    exact List.length_eq_zero_iff.mp (h.count.trans (pagesFor_zero hpage))
  · rintro rfl
    exact .nil hpage

/-! ### Pending requests -/

/-- A pending request has no window. -/
theorem WindowOwned.pending_nil (hslots : SlotsOwned pool reqs a)
    (h : WindowOwned pool reqs pending a W) (hr : a.reqPoolIdx r = some i) (hpend : r ∈ pending)
    (rank : Nat) : W rank i = [] := by
  by_contra hne
  obtain ⟨q, hq, hidx, -⟩ := h.only rank i hne
  rw [hslots.single hr hidx] at hpend
  exact hq hpend

theorem CompressedOwned.pending_zero (hslots : SlotsOwned pool reqs a)
    (h : CompressedOwned pool reqs pending a C) (hr : a.reqPoolIdx r = some i)
    (hpend : r ∈ pending) : a.compressedCapacity i = 0 := by
  by_contra hne
  obtain ⟨q, hq, hidx⟩ := h.capacity i hne
  rw [hslots.single hr hidx] at hpend
  exact hq hpend

/-- Without capacity there are no pages. -/
theorem CompressedOwned.nil_of_zero (h : CompressedOwned pool reqs pending a C)
    (hzero : a.compressedCapacity i = 0) (rank : Nat) : C rank i = [] := by
  by_contra hne
  obtain ⟨q, hidx, rfl⟩ := h.only rank i hne
  have hlaid := h.laid q i hidx
  rw [hzero, List.take_zero, laid_nil_iff h.tier.pageSize_pos] at hlaid
  exact hne hlaid

/-- The requests that got their slots are pending until they get a window. -/
theorem WindowOwned.seat (h : WindowOwned pool reqs ∅ a W)
    (hseat : Seated pool reqs requests a b) :
    WindowOwned pool reqs {r | r ∈ requests ∧ a.reqPoolIdx r = none} b W := by
  have hold {q j : Nat} (hq : b.reqPoolIdx q = some j)
      (hpend : q ∉ {r | r ∈ requests ∧ a.reqPoolIdx r = none}) : a.reqPoolIdx q = some j := by
    rw [← hq]
    refine (hseat.request q ?_).symm
    by_cases hmem : q ∈ requests
    · refine .inl (Option.isSome_iff_ne_none.mpr fun hnone => hpend ⟨hmem, hnone⟩)
    · exact .inr hmem
  rw [hseat.same]
  refine ⟨h.tier, h.row, ?_, ?_, ?_⟩
  · intro q j hq hpend
    exact h.rank q j (hold hq hpend) (Set.notMem_empty q)
  · intro q j hq hpend
    exact h.laid q j (hold hq hpend) (Set.notMem_empty q)
  · intro rank j hne
    obtain ⟨q, -, hq, hrank⟩ := h.only rank j hne
    refine ⟨q, ?_, ?_, hrank⟩
    · rintro ⟨-, hnone⟩
      rw [hq] at hnone
      cases hnone
    · exact (hseat.request q (.inl (by rw [hq]; rfl))).trans hq

theorem CompressedOwned.seat (h : CompressedOwned pool reqs ∅ a C)
    (hseat : Seated pool reqs requests a b) :
    CompressedOwned pool reqs {r | r ∈ requests ∧ a.reqPoolIdx r = none} b C := by
  have hkept {q j : Nat} (hq : a.reqPoolIdx q = some j) : b.reqPoolIdx q = some j :=
    (hseat.request q (.inl (by rw [hq]; rfl))).trans hq
  -- A slot that was free has no capacity and no pages.
  have hfresh {q j : Nat} (hq : b.reqPoolIdx q = some j) (hnone : a.reqPoolIdx q = none)
      {p : Nat} (hp : a.reqPoolIdx p = some j) : False := by
    have hpq := hseat.slots.single (hkept hp) hq
    rw [hpq, hnone] at hp
    cases hp
  rw [hseat.same]
  refine ⟨h.tier, h.row, h.aligned, h.bounded, ?_, ?_, ?_⟩
  · intro q j hq
    cases hold : a.reqPoolIdx q with
    | some k =>
      have hjk := (hkept hold).symm.trans hq
      rw [Option.some.injEq] at hjk
      exact hjk ▸ h.laid q k hold
    | none =>
      have hzero : a.compressedCapacity j = 0 := by
        by_contra hne
        obtain ⟨p, -, hp⟩ := h.capacity j hne
        exact hfresh hq hold hp
      have hnil : C (reqs.rank q) j = [] := by
        by_contra hne
        obtain ⟨p, hp, -⟩ := h.only _ j hne
        exact hfresh hq hold hp
      dsimp only
      rw [hzero, List.take_zero, hnil]
      exact .nil h.tier.pageSize_pos
  · intro rank j hne
    obtain ⟨q, hq, hrank⟩ := h.only rank j hne
    exact ⟨q, hkept hq, hrank⟩
  · intro j hne
    obtain ⟨q, -, hq⟩ := h.capacity j hne
    refine ⟨q, ?_, hkept hq⟩
    rintro ⟨-, hnone⟩
    rw [hq] at hnone
    cases hnone

section Leave

variable (freeSlots : List Nat) (recurrentFreeSlots : Nat → List Nat)

/-- A pending request can leave its slot. -/
theorem WindowOwned.leave (h : WindowOwned pool reqs pending a W) (hpend : r ∈ pending) :
    WindowOwned pool reqs (pending \ {r}) { a with
      freeSlots
      recurrentFreeSlots
      reqPoolIdx := Function.update a.reqPoolIdx r none
      recurrentPoolIdx := Function.update a.recurrentPoolIdx r none } W := by
  have hold {q j : Nat} (hq : Function.update a.reqPoolIdx r none q = some j) :
      q ≠ r ∧ a.reqPoolIdx q = some j := by
    have hne : q ≠ r := by
      rintro rfl
      rw [Function.update_self] at hq
      cases hq
    rw [Function.update_of_ne hne] at hq
    exact ⟨hne, hq⟩
  refine ⟨h.tier, h.row, ?_, ?_, ?_⟩
  · intro q j hq hnot
    obtain ⟨hne, hq⟩ := hold hq
    exact h.rank q j hq fun hmem => hnot ⟨hmem, hne⟩
  · intro q j hq hnot
    obtain ⟨hne, hq⟩ := hold hq
    exact h.laid q j hq fun hmem => hnot ⟨hmem, hne⟩
  · intro rank j hne
    obtain ⟨q, hnot, hq, hrank⟩ := h.only rank j hne
    have hqr : q ≠ r := by
      rintro rfl
      exact hnot hpend
    exact ⟨q, fun hmem => hnot hmem.1, by dsimp only; rw [Function.update_of_ne hqr, hq], hrank⟩

theorem CompressedOwned.leave (hslots : SlotsOwned pool reqs a)
    (h : CompressedOwned pool reqs pending a C) (hr : a.reqPoolIdx r = some i)
    (hpend : r ∈ pending) : CompressedOwned pool reqs (pending \ {r}) { a with
      freeSlots
      recurrentFreeSlots
      reqPoolIdx := Function.update a.reqPoolIdx r none
      recurrentPoolIdx := Function.update a.recurrentPoolIdx r none } C := by
  have hzero := h.pending_zero hslots hr hpend
  refine ⟨h.tier, h.row, h.aligned, h.bounded, ?_, ?_, ?_⟩
  · intro q j hq
    dsimp only at hq
    have hqr : q ≠ r := by
      rintro rfl
      rw [Function.update_self] at hq
      cases hq
    rw [Function.update_of_ne hqr] at hq
    exact h.laid q j hq
  · intro rank j hne
    obtain ⟨q, hq, hrank⟩ := h.only rank j hne
    have hqr : q ≠ r := by
      rintro rfl
      rw [hr] at hq
      cases hq
      exact hne (h.nil_of_zero hzero rank)
    exact ⟨q, by dsimp only; rw [Function.update_of_ne hqr, hq], hrank⟩
  · intro j hne
    obtain ⟨q, hnot, hq⟩ := h.capacity j hne
    have hqr : q ≠ r := by
      rintro rfl
      exact hnot hpend
    exact ⟨q, fun hmem => hnot hmem.1, by dsimp only; rw [Function.update_of_ne hqr, hq]⟩

end Leave

/-! ### The windows of the new requests -/

theorem pool_window_pages (pool : Pool) :
    pool.windowSize / pool.pageSize * pool.pageSize = pool.windowSize :=
  Nat.div_mul_cancel (Nat.dvd_of_mod_eq_zero pool.windowSize_mod)

/-- A pending request takes a window when there is room for one. -/
theorem WindowOwned.take (hslots : SlotsOwned pool reqs a)
    (h : WindowOwned pool reqs pending a W) (hr : a.reqPoolIdx r = some i) (hpend : r ∈ pending)
    (hroom : pool.windowSize ≤ a.windowAllocator.availableSize (reqs.rank r)) :
    ∃ windowAllocator slots W', a.windowAllocator.alloc pool.windowSize (reqs.rank r) =
        .ok (windowAllocator, some slots) ∧
      windowAllocator.availableSize (reqs.rank r) + pool.windowSize =
        a.windowAllocator.availableSize (reqs.rank r) ∧
      WindowOwned pool reqs (pending \ {r}) { a with
        windowAllocator
        windowSlots := Function.update a.windowSlots i slots
        requestDpRanks := Function.update a.requestDpRanks i (reqs.rank r) } W' := by
  have hpage := h.tier.pageSize_pos
  have hpages := pool_window_pages pool
  have hcount : pool.windowSize / pool.pageSize ≤
      (a.windowAllocator.freeList (reqs.rank r)).length := by
    rw [h.tier.availableSize_eq, ← hpages] at hroom
    exact Nat.le_of_mul_le_mul_right hroom hpage
  obtain ⟨windowAllocator, fresh, halloc, hlen, htier, hleft, -⟩ :=
    h.tier.alloc (hslots.lt hr) hcount
  rw [hpages] at halloc
  rw [h.pending_nil hslots hr hpend, List.nil_append] at htier
  have hsize : (fresh.flatMap (pageSlots pool.pageSize)).length = pool.windowSize := by
    rw [length_flatMap_pageSlots, hlen, hpages]
  refine ⟨windowAllocator, _, _, halloc, ?_, htier, ?_, ?_, ?_, ?_⟩
  · rw [htier.availableSize_eq, h.tier.availableSize_eq, ← hleft, Nat.add_mul, hpages]
  · intro j
    dsimp only
    by_cases hji : j = i
    · rw [hji, Function.update_self, hsize]
    · rw [Function.update_of_ne hji]
      exact h.row j
  · intro q j hq hnot
    dsimp only
    by_cases hqr : q = r
    · subst hqr
      rw [hr, Option.some.injEq] at hq
      rw [← hq, Function.update_self]
    · have hji : j ≠ i := by
        rintro rfl
        exact hqr (hslots.single hq hr)
      rw [Function.update_of_ne hji]
      exact h.rank q j hq fun hmem => hnot ⟨hmem, hqr⟩
  · intro q j hq hnot
    dsimp only
    by_cases hqr : q = r
    · subst hqr
      rw [hr, Option.some.injEq] at hq
      rw [← hq, Function.update_self, PageTier.give_self]
      have hlaid : Laid pool.pageSize
          ((fresh.flatMap (pageSlots pool.pageSize)).take pool.windowSize) fresh :=
        .of_take hpage (by rw [hlen, pagesFor_of_dvd hpage pool.windowSize_mod])
      rwa [← hsize, List.take_length] at hlaid
    · have hji : j ≠ i := by
        rintro rfl
        exact hqr (hslots.single hq hr)
      rw [Function.update_of_ne hji, PageTier.give_holder hji]
      exact h.laid q j hq fun hmem => hnot ⟨hmem, hqr⟩
  · intro rank j hne
    by_cases hji : j = i
    · subst hji
      refine ⟨r, fun hmem => hmem.2 rfl, hr, ?_⟩
      by_contra hrank
      rw [PageTier.give_rank (Ne.symm hrank), h.pending_nil hslots hr hpend] at hne
      exact hne rfl
    · rw [PageTier.give_holder hji] at hne
      obtain ⟨q, hnot, hq, hrank⟩ := h.only rank j hne
      exact ⟨q, fun hmem => hnot hmem.1, hq, hrank⟩

/-- A window goes back and its request is pending again. -/
theorem WindowOwned.return (hslots : SlotsOwned pool reqs a)
    (h : WindowOwned pool reqs pending a W) (hr : a.reqPoolIdx r = some i) (hnot : r ∉ pending) :
    ∃ W', WindowOwned pool reqs (insert r pending) (a.returnWindow (reqs.rank r) r) W' := by
  have htier := h.tier.free (hslots.lt hr) (h.laid r i hr hnot)
  unfold Allocator.returnWindow
  simp only [hr]
  have hother {q j : Nat} (hq : a.reqPoolIdx q = some j) (hqr : q ≠ r) : j ≠ i := by
    rintro rfl
    exact hqr (hslots.single hq hr)
  refine ⟨_, htier, ?_, ?_, ?_, ?_⟩
  · intro j
    dsimp only
    by_cases hji : j = i
    · rw [hji, Function.update_self, List.length_replicate]
      exact h.row i
    · rw [Function.update_of_ne hji]
      exact h.row j
  · intro q j hq hins
    exact h.rank q j hq fun hmem => hins (.inr hmem)
  · intro q j hq hins
    have hji := hother hq fun heq => hins (.inl heq)
    dsimp only
    rw [Function.update_of_ne hji, PageTier.give_holder hji]
    exact h.laid q j hq fun hmem => hins (.inr hmem)
  · intro rank j hne
    by_cases hji : j = i
    · subst hji
      exfalso
      by_cases hrank : rank = reqs.rank r
      · subst hrank
        exact hne (PageTier.give_self ..)
      · rw [PageTier.give_rank hrank] at hne
        obtain ⟨q, -, hq, hrankq⟩ := h.only rank j hne
        rw [hslots.single hq hr] at hrankq
        exact hrank hrankq.symm
    · rw [PageTier.give_holder hji] at hne
      obtain ⟨q, hq, hidx, hrank⟩ := h.only rank j hne
      refine ⟨q, ?_, hidx, hrank⟩
      rintro (rfl | hmem)
      · rw [hr] at hidx
        cases hidx
        exact hji rfl
      · exact hq hmem

/-! ### The loop and the rollback -/

/-- Only the window tier changed. -/
def Allocator.OnlyWindows (a b : Allocator) : Prop :=
  b = { a with
    windowAllocator := b.windowAllocator
    windowSlots := b.windowSlots
    requestDpRanks := b.requestDpRanks }

theorem Allocator.OnlyWindows.trans {c : Allocator} (hab : a.OnlyWindows b)
    (hbc : b.OnlyWindows c) : a.OnlyWindows c := by
  unfold OnlyWindows at *
  rw [hbc, hab]

theorem Allocator.OnlyWindows.slots (h : a.OnlyWindows b) (hslots : SlotsOwned pool reqs a) :
    SlotsOwned pool reqs b := by
  rw [show b = _ from h]
  exact ⟨hslots.request, hslots.recurrent, hslots.both, hslots.ranked⟩

theorem Allocator.OnlyWindows.compressed (h : a.OnlyWindows b)
    (hcompressed : CompressedOwned pool reqs pending a C) :
    CompressedOwned pool reqs pending b C := by
  rw [show b = _ from h]
  exact ⟨hcompressed.tier, hcompressed.row, hcompressed.aligned, hcompressed.bounded,
    hcompressed.laid, hcompressed.only, hcompressed.capacity⟩

theorem Allocator.OnlyWindows.reqPoolIdx (h : a.OnlyWindows b) : b.reqPoolIdx = a.reqPoolIdx := by
  rw [show b = _ from h]

/-- Rows of other requests are as they were. -/
def Allocator.KeepsRows (requests : List Nat) (a b : Allocator) : Prop :=
  ∀ i, (∀ r ∈ requests, a.reqPoolIdx r ≠ some i) → b.windowSlots i = a.windowSlots i

/-- The loop takes the windows of the first requests, of all of them if nothing was
raised. -/
theorem takeWindows_owned (faults : Faults) {dpRank : Nat} (hslots : SlotsOwned pool reqs a)
    (h : WindowOwned pool reqs pending a W)
    (hlive : ∀ r ∈ requests, r ∈ pending ∧ (a.reqPoolIdx r).isSome ∧ reqs.rank r = dpRank)
    (hnodup : requests.Nodup)
    (hroom : requests.length * pool.windowSize ≤ a.windowAllocator.availableSize dpRank) :
    ∃ b allocated raised W',
      a.takeWindows pool faults dpRank requests = (b, allocated, raised) ∧
      allocated <+: requests ∧ (raised = none → allocated = requests) ∧
      a.OnlyWindows b ∧ a.KeepsRows requests b ∧
      WindowOwned pool reqs (pending \ {r | r ∈ allocated}) b W' := by
  induction requests generalizing a pending W with
  | nil =>
    refine ⟨a, [], none, W, rfl, List.prefix_rfl, fun _ => rfl, rfl, fun _ _ => rfl, ?_⟩
    simpa using h
  | cons r requests ih =>
    obtain ⟨hr, hnodup⟩ := List.nodup_cons.mp hnodup
    obtain ⟨hpend, hsome, hrank⟩ := hlive r List.mem_cons_self
    obtain ⟨i, hi⟩ := Option.isSome_iff_exists.mp hsome
    subst hrank
    rw [List.length_cons, Nat.add_mul, Nat.one_mul] at hroom
    unfold Allocator.takeWindows
    by_cases hfault : faults.window r
    · rw [if_pos hfault]
      refine ⟨a, [], _, W, rfl, List.nil_prefix, ?_, rfl, fun _ _ => rfl, ?_⟩
      · rintro ⟨⟩
      · simpa using h
    rw [if_neg hfault]
    obtain ⟨windowAllocator, slots, W', halloc, hleft, htaken⟩ :=
      h.take hslots hi hpend (by omega)
    have hstep : a.OnlyWindows { a with
        windowAllocator
        windowSlots := Function.update a.windowSlots i slots
        requestDpRanks := Function.update a.requestDpRanks i (reqs.rank r) } := rfl
    have hrest : ∀ q ∈ requests, q ∈ pending \ {r} ∧ (a.reqPoolIdx q).isSome ∧
        reqs.rank q = reqs.rank r := by
      intro q hq
      obtain ⟨hqpend, hqsome, hqrank⟩ := hlive q (List.mem_cons_of_mem _ hq)
      refine ⟨⟨hqpend, ?_⟩, hqsome, hqrank⟩
      rintro rfl
      exact hr hq
    obtain ⟨b, allocated, raised, W'', hloop, hstart, hall, honly, hkeep, howned⟩ :=
      ih (hstep.slots hslots) htaken hrest hnodup (by dsimp only; omega)
    simp only [halloc, hi, hloop]
    refine ⟨b, r :: allocated, raised, W'', rfl, ?_, ?_, hstep.trans honly, ?_, ?_⟩
    · exact List.cons_prefix_cons.mpr ⟨rfl, hstart⟩
    · intro hnone
      rw [hall hnone]
    · intro j hj
      have hji : j ≠ i := by
        rintro rfl
        exact hj r List.mem_cons_self hi
      have hrow := hkeep j fun q hq => hj q (List.mem_cons_of_mem _ hq)
      dsimp only at hrow
      rwa [Function.update_of_ne hji] at hrow
    · convert howned using 1
      ext q
      simp only [Set.mem_sdiff, Set.mem_ofPred_eq, List.mem_cons, Set.mem_singleton_iff]
      tauto

/-- The windows that were taken go back, one after the other. -/
theorem returnWindows_owned {dpRank : Nat} (hslots : SlotsOwned pool reqs a)
    (h : WindowOwned pool reqs pending a W)
    (hlive : ∀ r ∈ requests, r ∉ pending ∧ (a.reqPoolIdx r).isSome ∧ reqs.rank r = dpRank)
    (hnodup : requests.Nodup) :
    ∃ W', a.OnlyWindows (requests.foldl (Allocator.returnWindow dpRank) a) ∧
      a.KeepsRows requests (requests.foldl (Allocator.returnWindow dpRank) a) ∧
      WindowOwned pool reqs (pending ∪ {r | r ∈ requests})
        (requests.foldl (Allocator.returnWindow dpRank) a) W' := by
  induction requests generalizing a pending W with
  | nil =>
    refine ⟨W, rfl, fun _ _ => rfl, ?_⟩
    simpa using h
  | cons r requests ih =>
    obtain ⟨hr, hnodup⟩ := List.nodup_cons.mp hnodup
    obtain ⟨hpend, hsome, hrank⟩ := hlive r List.mem_cons_self
    obtain ⟨i, hi⟩ := Option.isSome_iff_exists.mp hsome
    subst hrank
    obtain ⟨W', hreturned⟩ := h.return hslots hi hpend
    have hstep : a.OnlyWindows (a.returnWindow (reqs.rank r) r) := by
      unfold Allocator.returnWindow
      simp only [hi]
      rfl
    have hidx := hstep.reqPoolIdx
    have hrest : ∀ q ∈ requests, q ∉ insert r pending ∧
        ((a.returnWindow (reqs.rank r) r).reqPoolIdx q).isSome ∧
        reqs.rank q = reqs.rank r := by
      intro q hq
      obtain ⟨hqpend, hqsome, hqrank⟩ := hlive q (List.mem_cons_of_mem _ hq)
      refine ⟨?_, by rw [hidx]; exact hqsome, hqrank⟩
      rintro (rfl | hmem)
      · exact hr hq
      · exact hqpend hmem
    obtain ⟨W'', honly, hkeep, howned⟩ := ih (hstep.slots hslots) hreturned hrest hnodup
    refine ⟨W'', hstep.trans honly, ?_, ?_⟩
    · intro j hj
      have hji : j ≠ i := by
        rintro rfl
        exact hj r List.mem_cons_self hi
      rw [List.foldl_cons, hkeep j fun q hq => by
        rw [hidx]; exact hj q (List.mem_cons_of_mem _ hq)]
      unfold Allocator.returnWindow
      simp only [hi]
      rw [Function.update_of_ne hji]
    · rw [List.foldl_cons]
      convert howned using 1
      ext q
      simp only [Set.mem_union, Set.mem_ofPred_eq, List.mem_cons, Set.mem_insert_iff]
      tauto

theorem returnRequests_owned (hslots : SlotsOwned pool reqs a)
    (hwindow : WindowOwned pool reqs pending a W)
    (hcompressed : CompressedOwned pool reqs pending a C)
    (hlive : ∀ r ∈ requests, r ∈ pending ∧ (a.reqPoolIdx r).isSome) (hnodup : requests.Nodup) :
    ∃ b, Allocator.returnRequests reqs requests a = (b, .ok ()) ∧ SlotsOwned pool reqs b ∧
      WindowOwned pool reqs (pending \ {r | r ∈ requests}) b W ∧
      CompressedOwned pool reqs (pending \ {r | r ∈ requests}) b C ∧
      (∀ q, b.reqPoolIdx q = if q ∈ requests then none else a.reqPoolIdx q) ∧
      (∀ q, b.recurrentPoolIdx q = if q ∈ requests then none else a.recurrentPoolIdx q) ∧
      b = { a with
        freeSlots := b.freeSlots
        recurrentFreeSlots := b.recurrentFreeSlots
        reqPoolIdx := b.reqPoolIdx
        recurrentPoolIdx := b.recurrentPoolIdx } := by
  induction requests generalizing a pending with
  | nil =>
    refine ⟨a, rfl, hslots, ?_, ?_, fun q => by simp, fun q => by simp, rfl⟩
    · simpa using hwindow
    · simpa using hcompressed
  | cons r requests ih =>
    obtain ⟨hr, hnodup⟩ := List.nodup_cons.mp hnodup
    obtain ⟨hpend, hsome⟩ := hlive r List.mem_cons_self
    obtain ⟨i, hi⟩ := Option.isSome_iff_exists.mp hsome
    obtain ⟨freeSlots, recurrentFreeSlots, hfree, hfreed⟩ := hybridFree_owned hslots hi
    have hrest : ∀ q ∈ requests, q ∈ pending \ {r} ∧
        (Function.update a.reqPoolIdx r none q).isSome := by
      intro q hq
      have hqr : q ≠ r := by
        rintro rfl
        exact hr hq
      obtain ⟨hqpend, hqsome⟩ := hlive q (List.mem_cons_of_mem _ hq)
      refine ⟨⟨hqpend, hqr⟩, ?_⟩
      rwa [Function.update_of_ne hqr]
    obtain ⟨b, heq, hb, hbwindow, hbcompressed, hidx, hrecurrent, hsame⟩ :=
      ih hfreed (hwindow.leave _ _ hpend) (hcompressed.leave _ _ hslots hi hpend) hrest hnodup
    have hset : (pending \ {r}) \ {q | q ∈ requests} = pending \ {q | q ∈ r :: requests} := by
      ext q
      simp only [Set.mem_sdiff, Set.mem_ofPred_eq, List.mem_cons, Set.mem_singleton_iff]
      tauto
    rw [hset] at hbwindow hbcompressed
    have hcons {idx idx' : Nat → Option Nat}
        (h : ∀ q, idx' q = if q ∈ requests then none else Function.update idx r none q) (q : Nat) :
        idx' q = if q ∈ r :: requests then none else idx q := by
      rw [h q]
      by_cases hqr : q = r
      · subst hqr
        simp
      · simp [hqr]
    refine ⟨b, ?_, hb, hbwindow, hbcompressed, hcons hidx, hcons hrecurrent, ?_⟩
    · unfold Allocator.returnRequests
      rw [if_pos hsome, hfree]
      exact heq
    · rw [hsame]

/-! ### Allocation -/

/-- In a reachable state everything has its owner and nothing is pending. -/
structure Owned (pool : Pool) (reqs : Requests) (a : Allocator) : Prop where
  slots : SlotsOwned pool reqs a
  window : ∃ W, WindowOwned pool reqs ∅ a W
  compressed : ∃ C, CompressedOwned pool reqs ∅ a C

/-- The free pages of both tiers, the request slots and the recurrent slots are as
they were, and the live requests have what they had. -/
structure Restored (a b : Allocator) : Prop where
  request : b.reqPoolIdx = a.reqPoolIdx
  recurrent : b.recurrentPoolIdx = a.recurrentPoolIdx
  freeSlots : b.freeSlots.Perm a.freeSlots
  recurrentFreeSlots : ∀ rank, (b.recurrentFreeSlots rank).Perm (a.recurrentFreeSlots rank)
  windowPages : ∀ rank, (b.windowAllocator.freeList rank).Perm (a.windowAllocator.freeList rank)
  compressedPages : ∀ rank,
    (b.compressedAllocator.freeList rank).Perm (a.compressedAllocator.freeList rank)
  windowSlots : ∀ r i, a.reqPoolIdx r = some i → b.windowSlots i = a.windowSlots i
  compressedSlots : b.compressedSlots = a.compressedSlots
  compressedCapacity : b.compressedCapacity = a.compressedCapacity

theorem Restored.refl (a : Allocator) : Restored a a :=
  ⟨rfl, rfl, .refl _, fun _ => .refl _, fun _ => .refl _, fun _ => .refl _, fun _ _ _ => rfl, rfl,
    rfl⟩

/-- The rows of the live requests fix the window pages that are in use. -/
theorem WindowOwned.held_eq {W' : Nat → Nat → List Nat} (h : WindowOwned pool reqs ∅ a W)
    (h' : WindowOwned pool reqs ∅ b W') (hidx : b.reqPoolIdx = a.reqPoolIdx)
    (hrow : ∀ r i, a.reqPoolIdx r = some i → b.windowSlots i = a.windowSlots i) : W' = W := by
  have hlive {r i : Nat} (hr : a.reqPoolIdx r = some i) :
      W' (reqs.rank r) i = W (reqs.rank r) i := by
    have hpage := h.tier.pageSize_pos
    have hlaid := h'.laid r i (by rw [hidx, hr]) (Set.notMem_empty r)
    rw [hrow r i hr] at hlaid
    rw [← hlaid.pagesOf_eq hpage, ← (h.laid r i hr (Set.notMem_empty r)).pagesOf_eq hpage]
  funext rank i
  by_cases hne : W rank i = []
  · by_cases hne' : W' rank i = []
    · rw [hne, hne']
    · obtain ⟨r, -, hr, rfl⟩ := h'.only rank i hne'
      rw [hidx] at hr
      exact hlive hr
  · obtain ⟨r, -, hr, rfl⟩ := h.only rank i hne
    exact hlive hr

/-- The requests of a batch that have no slot yet. -/
def Allocator.newRequests (a : Allocator) (requests : List Nat) : List Nat :=
  requests.filter fun r => (a.reqPoolIdx r).isNone

theorem Allocator.mem_newRequests :
    r ∈ a.newRequests requests ↔ r ∈ requests ∧ a.reqPoolIdx r = none := by
  simp [newRequests]

/-- After a failure everything is as it was before the call. -/
theorem rollback_restores {c : Allocator} {W' : Nat → Nat → List Nat} {dpRank : Nat}
    {allocated : List Nat} (hslots : SlotsOwned pool reqs a) (hwindow : WindowOwned pool reqs ∅ a W)
    (hcompressed : CompressedOwned pool reqs ∅ a C) (hseat : Seated pool reqs requests a b)
    (hnodup : requests.Nodup) (hrank : ∀ r ∈ requests, reqs.rank r = dpRank)
    (honly : b.OnlyWindows c) (hkeep : b.KeepsRows (a.newRequests requests) c)
    (hstart : allocated <+: a.newRequests requests)
    (htaken : WindowOwned pool reqs
      ({r | r ∈ requests ∧ a.reqPoolIdx r = none} \ {r | r ∈ allocated}) c W')
    (raised : HcaError) :
    ∃ d, c.rollback reqs dpRank allocated (a.newRequests requests) raised = (d, raised) ∧
      Owned pool reqs d ∧ Restored a d := by
  have hnew : (a.newRequests requests).Nodup := hnodup.filter _
  have hcslots := honly.slots hseat.slots
  have hcidx := honly.reqPoolIdx
  have hcslot {r : Nat} (hr : r ∈ a.newRequests requests) : (c.reqPoolIdx r).isSome := by
    rw [hcidx]
    exact hseat.seated r (Allocator.mem_newRequests.mp hr).1
  have hback : ∀ r ∈ allocated,
      r ∉ {r | r ∈ requests ∧ a.reqPoolIdx r = none} \ {r | r ∈ allocated} ∧
        (c.reqPoolIdx r).isSome ∧ reqs.rank r = dpRank :=
    fun r hr => ⟨fun hmem => hmem.2 hr, hcslot (hstart.subset hr),
      hrank r (Allocator.mem_newRequests.mp (hstart.subset hr)).1⟩
  obtain ⟨V, hreturn, hreturnKeep, hreturned⟩ :=
    returnWindows_owned hcslots htaken hback (hnew.sublist hstart.sublist)
  have hset : {r | r ∈ requests ∧ a.reqPoolIdx r = none} \ {r | r ∈ allocated} ∪
      {r | r ∈ allocated} = {r | r ∈ a.newRequests requests} := by
    ext q
    simp only [Set.mem_union, Set.mem_sdiff, Set.mem_ofPred_eq, ← Allocator.mem_newRequests]
    constructor
    · rintro (hq | hq)
      · exact hq.1
      · exact hstart.subset hq
    · intro hq
      by_cases hmem : q ∈ allocated
      · exact .inr hmem
      · exact .inl ⟨hq, hmem⟩
  have hpending : {r | r ∈ requests ∧ a.reqPoolIdx r = none} = {r | r ∈ a.newRequests requests} := by
    ext q
    exact Allocator.mem_newRequests.symm
  have hbcompressed := hreturn.compressed (honly.compressed (hcompressed.seat hseat))
  rw [hset] at hreturned
  rw [hpending] at hbcompressed
  set e := allocated.foldl (Allocator.returnWindow dpRank) c with he
  have heidx : e.reqPoolIdx = b.reqPoolIdx := hreturn.reqPoolIdx.trans hcidx
  obtain ⟨d, heq, hd, hdwindow, hdcompressed, hidx, hrecurrent, hsame⟩ :=
    returnRequests_owned (hreturn.slots hcslots) hreturned hbcompressed
      (fun r hr => ⟨hr, by rw [hreturn.reqPoolIdx]; exact hcslot hr⟩) hnew
  rw [Set.sdiff_self] at hdwindow hdcompressed
  have hold {r : Nat} (hr : r ∉ a.newRequests requests) :
      (a.reqPoolIdx r).isSome ∨ r ∉ requests := by
    by_cases hmem : r ∈ requests
    · refine .inl (Option.isSome_iff_ne_none.mpr fun hnone => hr ?_)
      exact Allocator.mem_newRequests.mpr ⟨hmem, hnone⟩
    · exact .inr hmem
  have hrequest : d.reqPoolIdx = a.reqPoolIdx := by
    funext r
    rw [hidx r, heidx]
    split
    · rename_i hr
      exact (Allocator.mem_newRequests.mp hr).2.symm
    · rename_i hr
      exact hseat.request r (hold hr)
  have hrecurrentIdx : d.recurrentPoolIdx = a.recurrentPoolIdx := by
    funext r
    rw [hrecurrent r]
    split
    · rename_i hr
      have hboth := hslots.both r
      rw [(Allocator.mem_newRequests.mp hr).2] at hboth
      cases hslot : a.recurrentPoolIdx r with
      | none => rfl
      | some slot =>
        rw [hslot] at hboth
        cases hboth
    · rename_i hr
      rw [show e.recurrentPoolIdx = b.recurrentPoolIdx by
        rw [show e = _ from hreturn, show c = _ from honly]]
      exact hseat.recurrent r (hold hr)
  have hrow : ∀ r i, a.reqPoolIdx r = some i → d.windowSlots i = a.windowSlots i := by
    intro r i hr
    have hseated : b.reqPoolIdx r = some i :=
      (hseat.request r (.inl (by rw [hr]; rfl))).trans hr
    have hother : ∀ q ∈ a.newRequests requests, b.reqPoolIdx q ≠ some i := by
      intro q hq heq
      rw [← hseat.slots.single hseated heq, Allocator.mem_newRequests, hr] at hq
      cases hq.2
    rw [show d.windowSlots = e.windowSlots by rw [hsame],
      hreturnKeep i fun q hq => by rw [hcidx]; exact hother q (hstart.subset hq),
      hkeep i hother, hseat.same]
  refine ⟨d, ?_, ⟨hd, ⟨V, hdwindow⟩, ⟨C, hdcompressed⟩⟩, hrequest, hrecurrentIdx, ?_, ?_, ?_, ?_,
    hrow, ?_, ?_⟩
  · unfold Allocator.rollback
    rw [← he, heq]
  · have hperm := hd.request
    rw [hrequest] at hperm
    exact hperm.perm hslots.request
  · intro rank
    have hperm := hd.recurrent rank
    rw [hrecurrentIdx] at hperm
    exact hperm.perm (hslots.recurrent rank)
  · intro rank
    have hheld := hwindow.held_eq hdwindow hrequest hrow
    exact (hdwindow.tier.ledger rank).perm (hwindow.tier.ledger rank) fun i _ => by rw [hheld]
  · intro rank
    rw [hsame, show e = _ from hreturn, show c = _ from honly, hseat.same]
  · rw [hsame, show e = _ from hreturn, show c = _ from honly, hseat.same]
  · rw [hsame, show e = _ from hreturn, show c = _ from honly, hseat.same]

/-- A batch gets everything for all its requests, or nothing changes. -/
theorem alloc_owned (h : Owned pool reqs a) (hnodup : requests.Nodup) (isReused : Nat → Bool)
    (faults : Faults) :
    Owned pool reqs (a.alloc pool reqs isReused faults requests).1 ∧
      ((∃ slots, (a.alloc pool reqs isReused faults requests).2 = .ok (some slots)) ∨
        Restored a (a.alloc pool reqs isReused faults requests).1) := by
  obtain ⟨hslots, ⟨W, hwindow⟩, ⟨C, hcompressed⟩⟩ := id h
  cases requests with
  | nil => exact ⟨h, .inr (.refl a)⟩
  | cons first rest =>
    unfold Allocator.alloc
    dsimp only
    split
    · exact ⟨h, .inr (.refl a)⟩
    rename_i hmixed
    split
    · exact ⟨h, .inr (.refl a)⟩
    rename_i hdp
    split
    · exact ⟨h, .inr (.refl a)⟩
    rename_i hroom
    have hrank : ∀ r ∈ first :: rest, reqs.rank r = reqs.rank first := by
      intro r hr
      by_contra hne
      exact hmixed (List.any_eq_true.mpr ⟨r, hr, decide_eq_true hne⟩)
    rcases hybridAlloc_cases isReused hslots hnodup (Nat.lt_of_not_le hdp) rfl hrank with
      ⟨raised, heq⟩ | heq | ⟨b, result, heq, hseat⟩
    · rw [heq]
      exact ⟨h, .inr (.refl a)⟩
    · rw [heq]
      exact ⟨h, .inr (.refl a)⟩
    rw [heq]
    dsimp only
    have hlive : ∀ r ∈ a.newRequests (first :: rest),
        r ∈ {r | r ∈ first :: rest ∧ a.reqPoolIdx r = none} ∧ (b.reqPoolIdx r).isSome ∧
          reqs.rank r = reqs.rank first := by
      intro r hr
      have hr := Allocator.mem_newRequests.mp hr
      exact ⟨hr, hseat.seated r hr.1, hrank r hr.1⟩
    obtain ⟨c, allocated, raised, W', htake, hstart, hall, honly, hkeep, htaken⟩ :=
      takeWindows_owned faults hseat.slots (hwindow.seat hseat) hlive (hnodup.filter _) (by
        rw [hseat.same]
        exact Nat.le_of_not_lt hroom)
    have hrollback (raised : HcaError) := rollback_restores hslots hwindow hcompressed hseat hnodup
      hrank honly hkeep hstart htaken raised
    rw [show b.takeWindows pool faults (reqs.rank first)
      ((first :: rest).filter fun r => (a.reqPoolIdx r).isNone) = _ from htake]
    cases raised with
    | some raised =>
      obtain ⟨d, hback, hd, hrestored⟩ := hrollback raised
      dsimp only
      rw [show c.rollback reqs (reqs.rank first) allocated
        ((first :: rest).filter fun r => (a.reqPoolIdx r).isNone) raised = _ from hback]
      exact ⟨hd, .inr hrestored⟩
    | none =>
      dsimp only
      split
      · obtain ⟨d, hback, hd, hrestored⟩ := hrollback .resetFailed
        rw [show c.rollback reqs (reqs.rank first) allocated
          ((first :: rest).filter fun r => (a.reqPoolIdx r).isNone) .resetFailed = _ from hback]
        exact ⟨hd, .inr hrestored⟩
      · have hnone : {r | r ∈ first :: rest ∧ a.reqPoolIdx r = none} \ {r | r ∈ allocated} = ∅ := by
          rw [hall rfl]
          ext q
          simp [Allocator.mem_newRequests]
        have hccompressed := honly.compressed (hcompressed.seat hseat)
        rw [hnone] at htaken
        have hsettled : CompressedOwned pool reqs ∅ c C :=
          ⟨hccompressed.tier, hccompressed.row, hccompressed.aligned, hccompressed.bounded,
            hccompressed.laid, hccompressed.only, fun i hne => by
              obtain ⟨q, -, hq⟩ := hccompressed.capacity i hne
              exact ⟨q, Set.notMem_empty q, hq⟩⟩
        exact ⟨⟨honly.slots hseat.slots, ⟨W', htaken⟩, ⟨C, hsettled⟩⟩, .inl ⟨result, rfl⟩⟩

end SglJax.MemCache.Hca
