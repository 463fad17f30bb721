import SglJax.MemCache.HcaGrowth

/-! Runs of the HCA allocator. In every reachable state each page of the two tiers is
free or belongs to one live request, and a call that fails leaves things as they were. -/
namespace SglJax.MemCache.Hca

open Foundation (Assigned Ledger)

variable {pool : Pool} {reqs : Requests} {a : Allocator} {W C : Nat → Nat → List Nat} {r i : Nat}

/-! ### Releasing a request -/

/-- The compressed pages of a request go back. -/
theorem CompressedOwned.return (hslots : SlotsOwned pool reqs a)
    (h : CompressedOwned pool reqs ∅ a C) (hr : a.reqPoolIdx r = some i) :
    ∃ C', CompressedOwned pool reqs {r} { a with
      compressedAllocator := a.compressedAllocator.free
        ((a.compressedSlots i).take (a.compressedCapacity i)) (reqs.rank r)
      compressedSlots := Function.update a.compressedSlots i
        (List.replicate (a.compressedSlots i).length 0)
      compressedCapacity := Function.update a.compressedCapacity i 0 } C' := by
  have hpage := h.tier.pageSize_pos
  refine ⟨_, h.tier.free (hslots.lt hr) (h.laid r i hr), ?_, ?_, ?_, ?_, ?_, ?_⟩
  · intro j
    dsimp only
    by_cases hji : j = i
    · rw [hji, Function.update_self, List.length_replicate]
      exact h.row i
    · rw [Function.update_of_ne hji]
      exact h.row j
  · intro j
    dsimp only
    by_cases hji : j = i
    · rw [hji, Function.update_self]
      exact Nat.dvd_zero _
    · rw [Function.update_of_ne hji]
      exact h.aligned j
  · intro j
    dsimp only
    by_cases hji : j = i
    · rw [hji, Function.update_self]
      exact Nat.zero_le _
    · rw [Function.update_of_ne hji]
      exact h.bounded j
  · intro q j hq
    dsimp only at hq ⊢
    by_cases hji : j = i
    · rw [hji] at hq ⊢
      rw [hslots.single hq hr, Function.update_self, Function.update_self, PageTier.give_self,
        List.take_zero]
      exact .nil hpage
    · rw [Function.update_of_ne hji, Function.update_of_ne hji, PageTier.give_holder hji]
      exact h.laid q j hq
  · intro rank j hne
    by_cases hji : j = i
    · subst hji
      by_cases hrank : rank = reqs.rank r
      · exact ⟨r, hr, hrank.symm⟩
      · rw [PageTier.give_rank hrank] at hne
        exact h.only rank j hne
    · rw [PageTier.give_holder hji] at hne
      exact h.only rank j hne
  · intro j hne
    dsimp only at hne
    have hji : j ≠ i := by
      rintro rfl
      exact hne (Function.update_self ..)
    rw [Function.update_of_ne hji] at hne
    obtain ⟨q, -, hq⟩ := h.capacity j hne
    refine ⟨q, ?_, hq⟩
    rintro rfl
    rw [hr] at hq
    cases hq
    exact hji rfl

/-- A request without capacity has nothing to give back. -/
theorem CompressedOwned.pending_of_zero (h : CompressedOwned pool reqs ∅ a C)
    (hr : a.reqPoolIdx r = some i) (hzero : a.compressedCapacity i = 0) :
    CompressedOwned pool reqs {r} a C := by
  refine ⟨h.tier, h.row, h.aligned, h.bounded, h.laid, h.only, ?_⟩
  intro j hne
  obtain ⟨q, -, hq⟩ := h.capacity j hne
  refine ⟨q, ?_, hq⟩
  rintro rfl
  rw [hr] at hq
  cases hq
  exact hne hzero

/-- Page 0 is never handed out, so the window of a live request is not zero. -/
theorem WindowOwned.any_ne_zero (hslots : SlotsOwned pool reqs a)
    (h : WindowOwned pool reqs ∅ a W) (hr : a.reqPoolIdx r = some i) :
    (a.windowSlots i).any (· ≠ 0) = true := by
  have hpage := h.tier.pageSize_pos
  have hlaid := h.laid r i hr (Set.notMem_empty r)
  have hpos := pool.windowSize_pos
  rw [← h.row i] at hpos
  have hcount := hlaid.count
  have hne : 0 < (W (reqs.rank r) i).length := by
    rw [hcount, lt_pagesFor_iff hpage, Nat.zero_mul]
    exact hpos
  have hget := List.getElem?_eq_getElem hne
  have hfirst := hlaid.first hpage hget
  have hscope := (h.tier.ledger (reqs.rank r)).held_mem (hslots.lt hr)
    (List.mem_of_getElem? hget)
  have hpagePos := (List.mem_range'_1.mp hscope).1
  rw [List.any_eq_true]
  refine ⟨_, List.mem_of_getElem? hfirst, decide_eq_true ?_⟩
  exact Nat.ne_of_gt (Nat.mul_pos hpagePos hpage)

/-- A request without pages leaves its slots. -/
theorem hybridFree_settles (hslots : SlotsOwned pool reqs a)
    (hwindow : WindowOwned pool reqs {r} a W) (hcompressed : CompressedOwned pool reqs {r} a C)
    (hr : a.reqPoolIdx r = some i) :
    Owned pool reqs (Allocator.hybridFree reqs { a with
      requestDpRanks := Function.update a.requestDpRanks i 0 } r).1 ∧
    (Allocator.hybridFree reqs { a with
      requestDpRanks := Function.update a.requestDpRanks i 0 } r).2 = .ok () := by
  set b : Allocator := { a with requestDpRanks := Function.update a.requestDpRanks i 0 }
  have hbslots : SlotsOwned pool reqs b :=
    ⟨hslots.request, hslots.recurrent, hslots.both, hslots.ranked⟩
  have hbwindow : WindowOwned pool reqs {r} b W := by
    refine ⟨hwindow.tier, hwindow.row, ?_, hwindow.laid, hwindow.only⟩
    intro q j hq hqr
    have hji : j ≠ i := by
      rintro rfl
      exact hqr (hslots.single hq hr)
    change Function.update a.requestDpRanks i 0 j = reqs.rank q
    rw [Function.update_of_ne hji]
    exact hwindow.rank q j hq hqr
  have hbcompressed : CompressedOwned pool reqs {r} b C :=
    ⟨hcompressed.tier, hcompressed.row, hcompressed.aligned, hcompressed.bounded,
      hcompressed.laid, hcompressed.only, hcompressed.capacity⟩
  obtain ⟨freeSlots, recurrentFreeSlots, hfree, hfreed⟩ := hybridFree_owned hbslots hr
  have hleftWindow := hbwindow.leave freeSlots recurrentFreeSlots (Set.mem_singleton r)
  have hleft := hbcompressed.leave freeSlots recurrentFreeSlots hbslots hr
    (Set.mem_singleton r)
  rw [Set.sdiff_self] at hleftWindow hleft
  rw [hfree]
  exact ⟨⟨hfreed, ⟨W, hleftWindow⟩, ⟨C, hleft⟩⟩, rfl⟩

/-- A live request gives back its pages and its slots. -/
theorem free_owned (h : Owned pool reqs a) (r : Nat) : Owned pool reqs (a.free reqs r).1 ∧
    ((a.free reqs r).2 = .ok () ∨ (a.free reqs r).1 = a) := by
  obtain ⟨hslots, ⟨W, hwindow⟩, ⟨C, hcompressed⟩⟩ := id h
  unfold Allocator.free
  cases hr : a.reqPoolIdx r with
  | none => exact ⟨h, .inr rfl⟩
  | some i =>
    obtain ⟨W', hreturned⟩ := hwindow.return hslots hr (Set.notMem_empty r)
    unfold Allocator.returnWindow at hreturned
    simp only [hr, insert_empty_eq] at hreturned
    dsimp only
    rw [if_pos (hwindow.any_ne_zero hslots hr)]
    dsimp only
    by_cases hcapacity : a.compressedCapacity i = 0
    · rw [if_neg (not_not.mpr hcapacity)]
      have hpending := hcompressed.pending_of_zero hr hcapacity
      have hsettled := hybridFree_settles (a := { a with
          windowAllocator := a.windowAllocator.free (a.windowSlots i) (reqs.rank r)
          windowSlots := Function.update a.windowSlots i
            (List.replicate (a.windowSlots i).length 0) })
        ⟨hslots.request, hslots.recurrent, hslots.both, hslots.ranked⟩ hreturned
        ⟨hpending.tier, hpending.row, hpending.aligned, hpending.bounded, hpending.laid,
          hpending.only, hpending.capacity⟩ hr
      exact ⟨hsettled.1, .inl hsettled.2⟩
    · rw [if_pos hcapacity]
      obtain ⟨C', hback⟩ := hcompressed.return hslots hr
      have hsettled := hybridFree_settles (a := { a with
          windowAllocator := a.windowAllocator.free (a.windowSlots i) (reqs.rank r)
          windowSlots := Function.update a.windowSlots i
            (List.replicate (a.windowSlots i).length 0)
          compressedAllocator := a.compressedAllocator.free
            ((a.compressedSlots i).take (a.compressedCapacity i)) (reqs.rank r)
          compressedSlots := Function.update a.compressedSlots i
            (List.replicate (a.compressedSlots i).length 0)
          compressedCapacity := Function.update a.compressedCapacity i 0 })
        ⟨hslots.request, hslots.recurrent, hslots.both, hslots.ranked⟩
        ⟨hreturned.tier, hreturned.row, hreturned.rank, hreturned.laid, hreturned.only⟩
        ⟨hback.tier, hback.row, hback.aligned, hback.bounded, hback.laid, hback.only,
          hback.capacity⟩ hr
      exact ⟨hsettled.1, .inl hsettled.2⟩

/-! ### Runs -/

inductive Call where
  | alloc (requests : List Nat) (isReused : Nat → Bool) (faults : Faults)
  | ensureCompressedCapacity (reqPoolIndices seqLens : List Int)
  | free (r : Nat)
  | clear

inductive Outcome where
  | finished
  | slots (result : List Nat)
  | exhausted
  | raised (error : HcaError)
deriving DecidableEq, Repr

/-- The call returned `None` or raised. -/
def Outcome.failed : Outcome → Bool
  | exhausted | raised _ => true
  | _ => false

def Allocator.call (pool : Pool) (reqs : Requests) (a : Allocator) : Call → Allocator × Outcome
  | .alloc requests isReused faults =>
    match a.alloc pool reqs isReused faults requests with
    | (b, .ok (some result)) => (b, .slots result)
    | (b, .ok none) => (b, .exhausted)
    | (b, .error raised) => (b, .raised raised)
  | .ensureCompressedCapacity reqPoolIndices seqLens =>
    match a.ensureCompressedCapacity pool reqPoolIndices seqLens with
    | (b, .ok ()) => (b, .finished)
    | (b, .error raised) => (b, .raised raised)
  | .free r =>
    match a.free reqs r with
    | (b, .ok ()) => (b, .finished)
    | (b, .error raised) => (b, .raised raised)
  | .clear => (a.clear pool, .finished)

/-- A batch names a request once, and grows live requests only. -/
def Call.Proper (a : Allocator) : Call → Prop
  | .alloc requests _ _ => requests.Nodup
  | .ensureCompressedCapacity reqPoolIndices seqLens => a.LiveRows reqPoolIndices seqLens
  | .free _ | .clear => True

/-- `clear` does not reach the request objects; they are not used again. -/
def Call.forget : Call → Allocator → Allocator
  | .clear, a => { a with reqPoolIdx := fun _ => none, recurrentPoolIdx := fun _ => none }
  | _, a => a

/-- The states of the runs. -/
inductive Reachable (pool : Pool) (reqs : Requests) : Allocator → Prop where
  | init : Reachable pool reqs (.init pool)
  | call {a : Allocator} (c : Call) : Reachable pool reqs a → c.Proper a →
      Reachable pool reqs (c.forget (a.call pool reqs c).1)

theorem init_owned (pool : Pool) (reqs : Requests) : Owned pool reqs (.init pool) := by
  have hpage : 0 < pool.pageSize := Nat.lt_of_lt_of_le Nat.two_pos pool.pageSize_ge
  have hnone (rank : Nat) : reqs.onRank rank (fun _ => none) = fun _ => none := by
    funext r
    simp [Requests.onRank]
  refine ⟨⟨.start List.nodup_range, ?_, fun _ => rfl, ?_⟩, ⟨fun _ _ => [], ?_⟩, ⟨fun _ _ => [], ?_⟩⟩
  · intro rank
    change Assigned _ _ (reqs.onRank rank fun _ => none)
    rw [hnone rank]
    exact .start (List.nodup_range' 1)
  · intro r hr
    cases hr
  · refine ⟨.init hpage pool.dpSize_pos fun _ _ => rfl, ?_, ?_, ?_, ?_⟩
    · intro i
      exact List.length_replicate
    · intro r i hr
      cases hr
    · intro r i hr
      cases hr
    · intro rank i hne
      exact absurd rfl hne
  · refine ⟨.init hpage pool.dpSize_pos fun _ _ => rfl, ?_, ?_, ?_, ?_, ?_, ?_⟩
    · intro i
      exact List.length_replicate
    · intro i
      exact Nat.dvd_zero _
    · intro i
      exact Nat.zero_le _
    · intro r i hr
      cases hr
    · intro rank i hne
      exact absurd rfl hne
    · intro i hne
      exact absurd rfl hne

/-- What one call preserves, and what it leaves when it fails. -/
theorem call_owned (h : Owned pool reqs a) {c : Call} (hproper : c.Proper a) :
    Owned pool reqs (c.forget (a.call pool reqs c).1) ∧
      ((a.call pool reqs c).2.failed = true → Restored a (a.call pool reqs c).1) := by
  cases c with
  | alloc requests isReused faults =>
    obtain ⟨howned, hcases⟩ := alloc_owned h hproper isReused faults
    unfold Allocator.call Call.forget
    dsimp only
    rcases halloc : a.alloc pool reqs isReused faults requests with ⟨b, raised | (_ | result)⟩
    · rw [halloc] at howned hcases
      exact ⟨howned, fun _ => hcases.resolve_left (by rintro ⟨_, ⟨⟩⟩)⟩
    · rw [halloc] at howned hcases
      exact ⟨howned, fun _ => hcases.resolve_left (by rintro ⟨_, ⟨⟩⟩)⟩
    · rw [halloc] at howned
      exact ⟨howned, fun hfailed => by cases hfailed⟩
  | ensureCompressedCapacity reqPoolIndices seqLens =>
    obtain ⟨howned, hcases⟩ := ensureCompressedCapacity_owned h hproper
    unfold Allocator.call Call.forget
    dsimp only
    rcases hensure : a.ensureCompressedCapacity pool reqPoolIndices seqLens with ⟨b, raised | _⟩
    · rw [hensure] at howned hcases
      refine ⟨howned, fun _ => ?_⟩
      rw [show b = a from hcases.resolve_left (by rintro ⟨⟩)]
      exact .refl a
    · rw [hensure] at howned
      exact ⟨howned, fun hfailed => by cases hfailed⟩
  | free r =>
    obtain ⟨howned, hcases⟩ := free_owned h r
    unfold Allocator.call Call.forget
    dsimp only
    rcases hfree : a.free reqs r with ⟨b, raised | _⟩
    · rw [hfree] at howned hcases
      refine ⟨howned, fun _ => ?_⟩
      rw [show b = a from hcases.resolve_left (by rintro ⟨⟩)]
      exact .refl a
    · rw [hfree] at howned
      exact ⟨howned, fun hfailed => by cases hfailed⟩
  | clear => exact ⟨init_owned pool reqs, fun hfailed => by cases hfailed⟩

theorem reachable_owned (h : Reachable pool reqs a) : Owned pool reqs a := by
  induction h with
  | init => exact init_owned pool reqs
  | call c _ hproper ih => exact (call_owned ih hproper).1

end SglJax.MemCache.Hca
