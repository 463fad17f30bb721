import SglJax.MemCache.HcaAllocator
import SglJax.MemCache.PageTier

/-! Who has what in the two tiers. The pages that a request slot has on a rank are
those of the live request in it; a new request is pending until it has its window. -/
namespace SglJax.MemCache.Hca

open Foundation (Assigned Ledger)

/-! ### Handing out slots -/

section Assign

variable {requests select free scope : List Nat} {idx : Nat → Option Nat}

theorem countP_update_le (idx : Nat → Option Nat) (r slot : Nat) (requests : List Nat) :
    (requests.countP fun q => (Function.update idx r (some slot) q).isNone) ≤
      requests.countP fun q => (idx q).isNone := by
  apply List.countP_mono_left
  intro q _ hq
  by_cases hqr : q = r
  · subst hqr
    simp at hq
  · rwa [Function.update_of_ne hqr] at hq

theorem assign_append (free : List Nat)
    (hroom : (requests.countP fun r => (idx r).isNone) ≤ select.length) :
    assign requests (select ++ free) idx =
      ((assign requests select idx).1 ++ free, (assign requests select idx).2) := by
  induction requests generalizing select idx with
  | nil => rfl
  | cons r requests ih =>
    cases hr : idx r with
    | some slot =>
      rw [List.countP_cons_of_neg (by simp [hr])] at hroom
      simp only [assign, hr]
      exact ih hroom
    | none =>
      rw [List.countP_cons_of_pos (by simp [hr])] at hroom
      cases select with
      | nil => cases hroom
      | cons slot select =>
        simp only [assign, hr, List.cons_append]
        apply ih
        have := countP_update_le idx r slot requests
        rw [List.length_cons] at hroom
        omega

/-- Only the requests of the batch without a slot get one. -/
theorem assign_of_isSome {r : Nat} (h : (idx r).isSome ∨ r ∉ requests) :
    (assign requests free idx).2 r = idx r := by
  induction requests generalizing free idx with
  | nil => rfl
  | cons q requests ih =>
    have hrest : (idx r).isSome ∨ r ∉ requests :=
      h.imp_right fun hr hmem => hr (List.mem_cons_of_mem _ hmem)
    unfold assign
    split
    · rename_i slot free hq
      have hne : r ≠ q := by
        rintro rfl
        rcases h with h | h
        · rw [hq] at h
          cases h
        · exact h List.mem_cons_self
      rw [ih (by rwa [Function.update_of_ne hne]), Function.update_of_ne hne]
    · exact ih hrest

theorem assign_isSome (hroom : (requests.countP fun r => (idx r).isNone) ≤ free.length)
    {r : Nat} (hr : r ∈ requests) : ((assign requests free idx).2 r).isSome := by
  induction requests generalizing free idx with
  | nil => cases hr
  | cons q requests ih =>
    cases hq : idx q with
    | some slot =>
      rw [List.countP_cons_of_neg (by simp [hq])] at hroom
      simp only [assign, hq]
      rcases List.mem_cons.mp hr with rfl | hr
      · rw [assign_of_isSome (.inl (by rw [hq]; rfl)), hq]
        rfl
      · exact ih hroom hr
    | none =>
      rw [List.countP_cons_of_pos (by simp [hq])] at hroom
      cases free with
      | nil => cases hroom
      | cons slot free =>
        simp only [assign, hq]
        rcases List.mem_cons.mp hr with rfl | hr
        · rw [assign_of_isSome (.inl (by rw [Function.update_self]; rfl)), Function.update_self]
          rfl
        · apply ih _ hr
          have := countP_update_le idx q slot requests
          rw [List.length_cons] at hroom
          omega

/-- Distinct requests use up one slot each. -/
theorem assign_length (hnodup : requests.Nodup)
    (hroom : (requests.countP fun r => (idx r).isNone) ≤ free.length) :
    (assign requests free idx).1.length + (requests.countP fun r => (idx r).isNone) =
      free.length := by
  induction requests generalizing free idx with
  | nil => rfl
  | cons q requests ih =>
    obtain ⟨hq, hnodup⟩ := List.nodup_cons.mp hnodup
    cases hidx : idx q with
    | some slot =>
      rw [List.countP_cons_of_neg (by simp [hidx])] at hroom ⊢
      simp only [assign, hidx]
      exact ih hnodup hroom
    | none =>
      rw [List.countP_cons_of_pos (by simp [hidx])] at hroom ⊢
      cases free with
      | nil => cases hroom
      | cons slot free =>
        have hsame : (requests.countP fun r => (Function.update idx q (some slot) r).isNone) =
            requests.countP fun r => (idx r).isNone := by
          apply List.countP_congr
          intro r hr
          have hne : r ≠ q := by
            rintro rfl
            exact hq hr
          rw [Function.update_of_ne hne]
        rw [List.length_cons] at hroom ⊢
        simp only [assign, hidx]
        have hless : (requests.countP fun r => (Function.update idx q (some slot) r).isNone) ≤
            free.length := by
          omega
        have := ih hnodup hless
        omega

theorem assign_assigned (requests : List Nat) (h : Assigned scope free idx) :
    Assigned scope (assign requests free idx).1 (assign requests free idx).2 := by
  induction requests generalizing free idx with
  | nil => exact h
  | cons q requests ih =>
    unfold assign
    split
    · rename_i hq
      exact ih (h.take hq)
    · exact ih h

end Assign

/-! ### What the live requests have -/

/-- The requests of a rank with what they have. -/
def Requests.onRank (reqs : Requests) (rank : Nat) (idx : Nat → Option Nat) (r : Nat) :
    Option Nat :=
  if reqs.rank r = rank then idx r else none

/-- Every request slot and every recurrent slot of a rank is free or has one live
request, and a live request has both. -/
structure SlotsOwned (pool : Pool) (reqs : Requests) (a : Allocator) : Prop where
  request : Assigned (List.range pool.maxNumRequests) a.freeSlots a.reqPoolIdx
  recurrent : ∀ rank, Assigned (List.range' 1 pool.slotsPerRank) (a.recurrentFreeSlots rank)
    (reqs.onRank rank a.recurrentPoolIdx)
  both : ∀ r, (a.reqPoolIdx r).isSome = (a.recurrentPoolIdx r).isSome
  ranked : ∀ r, (a.reqPoolIdx r).isSome → reqs.rank r < pool.dpSize

/-- The window tier: `W rank i` are the pages of request slot `i`. -/
structure WindowOwned (pool : Pool) (reqs : Requests) (pending : Set Nat) (a : Allocator)
    (W : Nat → Nat → List Nat) : Prop where
  tier : PageTier pool.pageSize pool.windowPagesPerRank pool.maxNumRequests a.windowAllocator W
  row : ∀ i, (a.windowSlots i).length = pool.windowSize
  rank : ∀ r i, a.reqPoolIdx r = some i → r ∉ pending → a.requestDpRanks i = reqs.rank r
  laid : ∀ r i, a.reqPoolIdx r = some i → r ∉ pending →
    Laid pool.pageSize (a.windowSlots i) (W (reqs.rank r) i)
  only : ∀ rank i, W rank i ≠ [] → ∃ r ∉ pending, a.reqPoolIdx r = some i ∧ reqs.rank r = rank

/-- The compressed tier: the pages of a slot lie under its first `compressed_capacity`
entries. -/
structure CompressedOwned (pool : Pool) (reqs : Requests) (pending : Set Nat) (a : Allocator)
    (C : Nat → Nat → List Nat) : Prop where
  tier : PageTier pool.pageSize pool.compressedPagesPerRank pool.maxNumRequests
    a.compressedAllocator C
  row : ∀ i, (a.compressedSlots i).length = pool.maxEntries
  aligned : ∀ i, pool.pageSize ∣ a.compressedCapacity i
  bounded : ∀ i, a.compressedCapacity i ≤ pool.maxEntries
  laid : ∀ r i, a.reqPoolIdx r = some i →
    Laid pool.pageSize ((a.compressedSlots i).take (a.compressedCapacity i)) (C (reqs.rank r) i)
  only : ∀ rank i, C rank i ≠ [] → ∃ r, a.reqPoolIdx r = some i ∧ reqs.rank r = rank
  capacity : ∀ i, a.compressedCapacity i ≠ 0 → ∃ r ∉ pending, a.reqPoolIdx r = some i

section Slots

variable {pool : Pool} {reqs : Requests} {a : Allocator} {requests : List Nat} {r i : Nat}

theorem SlotsOwned.lt (h : SlotsOwned pool reqs a) (hr : a.reqPoolIdx r = some i) :
    i < pool.maxNumRequests :=
  List.mem_range.mp (h.request.held_mem r i hr).1

theorem SlotsOwned.single (h : SlotsOwned pool reqs a) {q : Nat} (hr : a.reqPoolIdx r = some i)
    (hq : a.reqPoolIdx q = some i) : r = q :=
  h.request.single r q i hr hq

theorem onRank_update (reqs : Requests) (rank : Nat) (idx : Nat → Option Nat) (r : Nat)
    (slot : Option Nat) : reqs.onRank rank (Function.update idx r slot) =
      if reqs.rank r = rank then Function.update (reqs.onRank rank idx) r slot
      else reqs.onRank rank idx := by
  ext1 q
  by_cases hqr : q = r
  · subst hqr
    by_cases hrank : reqs.rank q = rank <;> simp [Requests.onRank, hrank]
  · by_cases hrank : reqs.rank r = rank <;> simp [Requests.onRank, hrank, hqr]

theorem onRank_assign {rank : Nat} (hrank : ∀ r ∈ requests, reqs.rank r = rank)
    (free : List Nat) (idx : Nat → Option Nat) :
    assign requests free (reqs.onRank rank idx) =
      ((assign requests free idx).1, reqs.onRank rank (assign requests free idx).2) := by
  induction requests generalizing free idx with
  | nil => rfl
  | cons r requests ih =>
    have hr := hrank r List.mem_cons_self
    have hrest : ∀ q ∈ requests, reqs.rank q = rank :=
      fun q hq => hrank q (List.mem_cons_of_mem _ hq)
    have hidx : reqs.onRank rank idx r = idx r := if_pos hr
    cases hfree : idx r with
    | some slot =>
      simp only [assign, hidx, hfree]
      exact ih hrest free idx
    | none =>
      cases free with
      | nil =>
        simp only [assign, hidx, hfree]
        exact ih hrest [] idx
      | cons slot free =>
        simp only [assign, hidx, hfree]
        rw [← ih hrest free (Function.update idx r (some slot)), onRank_update, if_pos hr]

theorem onRank_assign_of_ne {rank other : Nat} (hrank : ∀ r ∈ requests, reqs.rank r = rank)
    (hne : other ≠ rank) (free : List Nat) (idx : Nat → Option Nat) :
    reqs.onRank other (assign requests free idx).2 = reqs.onRank other idx := by
  ext1 r
  unfold Requests.onRank
  split
  · rename_i hr
    rw [assign_of_isSome (.inr fun hmem => hne (hr.symm.trans (hrank r hmem)))]
  · rfl

/-- The requests of a batch got their slots, and nothing else changed. -/
structure Seated (pool : Pool) (reqs : Requests) (requests : List Nat) (a b : Allocator) :
    Prop where
  slots : SlotsOwned pool reqs b
  request : ∀ r, (a.reqPoolIdx r).isSome ∨ r ∉ requests → b.reqPoolIdx r = a.reqPoolIdx r
  recurrent : ∀ r, (a.reqPoolIdx r).isSome ∨ r ∉ requests →
    b.recurrentPoolIdx r = a.recurrentPoolIdx r
  seated : ∀ r ∈ requests, (b.reqPoolIdx r).isSome
  same : b = { a with
    freeSlots := b.freeSlots
    recurrentFreeSlots := b.recurrentFreeSlots
    reqPoolIdx := b.reqPoolIdx
    recurrentPoolIdx := b.recurrentPoolIdx }

theorem reqToTokenAlloc_cases (isReused : Nat → Bool) (h : SlotsOwned pool reqs a)
    (hnodup : requests.Nodup) :
    (∃ raised, a.reqToTokenAlloc isReused requests = .error raised) ∨
    a.reqToTokenAlloc isReused requests = .ok (a, none) ∨
    ∃ freeSlots reqPoolIdx result, a.reqToTokenAlloc isReused requests =
        .ok ({ a with freeSlots, reqPoolIdx }, some result) ∧
      Assigned (List.range pool.maxNumRequests) freeSlots reqPoolIdx ∧
      (∀ r, (a.reqPoolIdx r).isSome ∨ r ∉ requests → reqPoolIdx r = a.reqPoolIdx r) ∧
      ∀ r ∈ requests, (reqPoolIdx r).isSome := by
  unfold Allocator.reqToTokenAlloc
  dsimp only
  split
  · exact .inl ⟨_, rfl⟩
  split
  · exact .inl ⟨_, rfl⟩
  split
  · exact .inr (.inl rfl)
  rename_i hroom
  have hneed : requests.length - (requests.filter fun r => (a.reqPoolIdx r).isSome).length =
      requests.countP fun r => (a.reqPoolIdx r).isNone := by
    have hsum : requests.length = _ :=
      List.length_eq_countP_add_countP fun r => (a.reqPoolIdx r).isSome
    have hnone : (requests.countP fun r => decide ¬(a.reqPoolIdx r).isSome = true) =
        requests.countP fun r => (a.reqPoolIdx r).isNone :=
      List.countP_congr fun r _ => by simp
    rw [hnone] at hsum
    rw [← List.countP_eq_length_filter]
    omega
  rw [hneed] at hroom ⊢
  set need := requests.countP fun r => (a.reqPoolIdx r).isNone with hdef
  have hselect : need ≤ (a.freeSlots.take need).length := by
    rw [List.length_take]
    omega
  have hsplit := assign_append (a.freeSlots.drop need) (hdef ▸ hselect)
  have hlen := assign_length hnodup (hdef ▸ hselect)
  have hnil : (assign requests (a.freeSlots.take need) a.reqPoolIdx).1 = [] := by
    apply List.length_eq_zero_iff.mp
    rw [← hdef, List.length_take, Nat.min_eq_left (by omega)] at hlen
    omega
  have howned := assign_assigned requests h.request
  rw [List.take_append_drop, hnil, List.nil_append] at hsplit
  rw [hsplit] at howned
  exact .inr (.inr ⟨_, _, _, rfl, howned, fun r hr => assign_of_isSome hr,
    fun r hr => assign_isSome (hdef ▸ hselect) hr⟩)

theorem hybridAlloc_cases (isReused : Nat → Bool) (h : SlotsOwned pool reqs a)
    (hnodup : requests.Nodup) {dpRank : Nat} (hdp : dpRank < pool.dpSize)
    (hhead : requests.head?.map reqs.rank = some dpRank)
    (hrank : ∀ r ∈ requests, reqs.rank r = dpRank) :
    (∃ raised, a.hybridAlloc reqs isReused requests = .error raised) ∨
    a.hybridAlloc reqs isReused requests = .ok (a, none) ∨
    ∃ b result, a.hybridAlloc reqs isReused requests = .ok (b, some result) ∧
      Seated pool reqs requests a b := by
  unfold Allocator.hybridAlloc
  rw [hhead, Option.getD_some]
  dsimp only
  split
  · exact .inr (.inl rfl)
  rename_i hroom
  rcases reqToTokenAlloc_cases isReused h hnodup with ⟨raised, heq⟩ | heq |
      ⟨freeSlots, reqPoolIdx, result, heq, howned, hkept, hseated⟩
  · rw [heq]
    exact .inl ⟨raised, rfl⟩
  · rw [heq]
    exact .inr (.inl rfl)
  rw [heq]
  have hsome (r : Nat) (hr : r ∈ requests) :
      ((assign requests (a.recurrentFreeSlots dpRank) a.recurrentPoolIdx).2 r).isSome :=
    assign_isSome (by omega) hr
  refine .inr (.inr ⟨_, _, rfl, ⟨howned, ?_, ?_, ?_⟩, hkept, ?_, hseated, rfl⟩)
  · intro rank
    by_cases hne : rank = dpRank
    · subst hne
      have hassigned := assign_assigned requests (h.recurrent rank)
      rw [onRank_assign hrank] at hassigned
      simpa using hassigned
    · dsimp only
      rw [Function.update_of_ne hne, onRank_assign_of_ne hrank hne]
      exact h.recurrent rank
  · intro r
    dsimp only
    by_cases hr : r ∈ requests
    · rw [hseated r hr, hsome r hr]
    · rw [hkept r (.inr hr), assign_of_isSome (.inr hr)]
      exact h.both r
  · intro r hr
    dsimp only at hr
    by_cases hmem : r ∈ requests
    · rw [hrank r hmem]
      exact hdp
    · rw [hkept r (.inr hmem)] at hr
      exact h.ranked r hr
  · intro r hr
    apply assign_of_isSome
    rw [← h.both r]
    exact hr

/-- A live request gives its slots back. -/
theorem hybridFree_owned (h : SlotsOwned pool reqs a) (hr : a.reqPoolIdx r = some i) :
    ∃ freeSlots recurrentFreeSlots,
      a.hybridFree reqs r = ({ a with
        freeSlots
        recurrentFreeSlots
        reqPoolIdx := Function.update a.reqPoolIdx r none
        recurrentPoolIdx := Function.update a.recurrentPoolIdx r none }, .ok ()) ∧
      SlotsOwned pool reqs { a with
        freeSlots
        recurrentFreeSlots
        reqPoolIdx := Function.update a.reqPoolIdx r none
        recurrentPoolIdx := Function.update a.recurrentPoolIdx r none } := by
  obtain ⟨slot, hslot⟩ : ∃ slot, a.recurrentPoolIdx r = some slot := by
    rw [← Option.isSome_iff_exists, ← h.both r, hr]
    rfl
  unfold Allocator.hybridFree
  simp only [hslot, hr]
  refine ⟨_, _, rfl, h.request.give hr, ?_, ?_, ?_⟩
  · intro rank
    dsimp only
    rw [onRank_update]
    by_cases hrank : rank = reqs.rank r
    · subst hrank
      rw [Function.update_self, if_pos rfl]
      exact (h.recurrent (reqs.rank r)).give (by rw [Requests.onRank, if_pos rfl, hslot])
    · rw [Function.update_of_ne hrank, if_neg (Ne.symm hrank)]
      exact h.recurrent rank
  · intro q
    dsimp only
    by_cases hqr : q = r
    · subst hqr
      simp
    · rw [Function.update_of_ne hqr, Function.update_of_ne hqr]
      exact h.both q
  · intro q hq
    dsimp only at hq
    by_cases hqr : q = r
    · subst hqr
      simp at hq
    · rw [Function.update_of_ne hqr] at hq
      exact h.ranked q hq

end Slots

end SglJax.MemCache.Hca
