import SglJax.Managers.SpecReservationSafety

/-! Exactly when a check that passes is enough for a speculative step. Outside the
legacy EAGLE3 mode the check and the reservation use the same lengths. In the legacy
mode `kv_committed_len` stays where prefill left it while `seq_lens` grows, so after
some rounds the check asks for nothing and the reservation goes on. -/
namespace SglJax.Managers

open Foundation MemCache

variable {cfg : SpecConfig} {τ ρ : Type}

/-- The tokens in the pages from one length of each row to another. -/
def addedTokens (pageSize : Nat) (start stop : SpecRow cfg ρ → Nat)
    (rows : List (SpecRow cfg ρ)) : Nat :=
  (rows.map fun row => pagedLen pageSize (stop row) - pagedLen pageSize (start row)).sum

theorem addedTokens_mono {pageSize : Nat} {start stop stop' : SpecRow cfg ρ → Nat}
    (h : ∀ row, stop row ≤ stop' row) (rows : List (SpecRow cfg ρ)) :
    addedTokens pageSize start stop rows ≤ addedTokens pageSize start stop' rows := by
  unfold addedTokens
  apply List.sum_le_sum
  intro row _
  exact Nat.sub_le_sub_right (pagedLen_mono (h row)) _

/-- The lengths of the rows say that the check asks for enough. -/
structure SpecBatch.Covered (pageSize : Nat) (batch : SpecBatch cfg ρ) : Prop where
  legacy : cfg.useLegacyEagle3NonOverlap = true → ∀ info ∈ batch,
    addedTokens pageSize (fun row => row.allocateLen)
        (fun row => row.seqLen + cfg.allocLenPerDecode - 1) info.rows ≤
      addedTokens pageSize (fun row => row.kvAllocatedLen)
        (fun row => max row.kvAllocatedLen (row.req.kvCommittedLen + 2 * cfg.allocLenPerDecode))
        info.rows
  dflash : cfg.algorithm = .dflash → cfg.enableOverlap = true → ∀ info ∈ batch,
    info.futureIndices = none →
    addedTokens pageSize (fun row => row.kvAllocatedLen)
        (fun row => max row.kvAllocatedLen (row.req.kvCommittedLen + 2 * cfg.blockSize))
        info.rows ≤
      addedTokens pageSize (fun row => row.kvAllocatedLen)
        (fun row => max row.kvAllocatedLen (row.req.kvCommittedLen + cfg.blockSize)) info.rows

section Lengths

variable (info : SpecReqsInfo cfg ρ)

theorem SpecReqsInfo.newTokensRequired_eq (pageSize : Nat) :
    info.newTokensRequiredNextDecode pageSize =
      addedTokens pageSize (fun row => row.kvAllocatedLen)
        (fun row => max row.kvAllocatedLen
          (row.req.kvCommittedLen + cfg.checkedTokens info.futureIndices.isSome)) info.rows :=
  rfl

theorem SpecReqsInfo.tokensReserved_eq (pageSize : Nat) :
    info.tokensReserved pageSize =
      addedTokens pageSize SpecRow.oldLen SpecRow.newLen info.rows :=
  rfl

theorem tokensReserved_legacy {pageSize : Nat} (hlegacy : cfg.useLegacyEagle3NonOverlap = true) :
    info.tokensReserved pageSize = addedTokens pageSize (fun row => row.allocateLen)
      (fun row => row.seqLen + cfg.allocLenPerDecode - 1) info.rows := by
  rw [info.tokensReserved_eq]
  congr 1
  · funext row
    unfold SpecRow.oldLen
    rw [if_pos hlegacy]
  · funext row
    unfold SpecRow.newLen
    rw [if_pos hlegacy]

theorem tokensReserved_other {pageSize : Nat} (hother : cfg.useLegacyEagle3NonOverlap = false) :
    info.tokensReserved pageSize = addedTokens pageSize (fun row => row.kvAllocatedLen)
      (fun row => max row.kvAllocatedLen (row.req.kvCommittedLen + cfg.reserveTokens))
      info.rows := by
  rw [info.tokensReserved_eq]
  congr 1
  · funext row
    unfold SpecRow.oldLen
    rw [hother, if_neg Bool.false_ne_true]
  · funext row
    unfold SpecRow.newLen
    rw [hother, if_neg Bool.false_ne_true]

theorem legacy_eagle3 (hlegacy : cfg.useLegacyEagle3NonOverlap = true) :
    cfg.algorithm = .eagle3 ∧ cfg.enableOverlap = false := by
  unfold SpecConfig.useLegacyEagle3NonOverlap at hlegacy
  rw [Bool.and_eq_true, Bool.not_eq_true', beq_iff_eq] at hlegacy
  exact ⟨hlegacy.2, hlegacy.1⟩

/-- The check reserves as far as the step, except for DFlash under overlap when the
state of the rank is not in the relay buffers. -/
theorem reserveTokens_le_checked (hstate : cfg.algorithm = .dflash → cfg.enableOverlap = true →
    info.futureIndices ≠ none) :
    cfg.reserveTokens ≤ cfg.checkedTokens info.futureIndices.isSome := by
  unfold SpecConfig.reserveTokens SpecConfig.checkedTokens
  cases halg : cfg.algorithm with
  | eagle => exact (Nat.mul_comm _ _).le
  | eagle3 => exact (Nat.mul_comm _ _).le
  | dflash =>
    apply Nat.mul_le_mul_left
    cases hoverlap : cfg.enableOverlap with
    | false => cases info.futureIndices <;> simp
    | true =>
      have hsome := Option.isSome_iff_ne_none.mpr (hstate halg hoverlap)
      rw [hsome]

end Lengths

namespace SpecBatch

variable {pageSize : Nat} {batch : SpecBatch cfg ρ}

theorem covered_iff : Covered pageSize batch ↔
    ∀ info ∈ batch, info.tokensReserved pageSize ≤ info.newTokensRequiredNextDecode pageSize := by
  cases hmode : cfg.useLegacyEagle3NonOverlap with
  | true =>
    obtain ⟨halg, hoverlap⟩ := legacy_eagle3 hmode
    have hchecked (state : Bool) : cfg.checkedTokens state = 2 * cfg.allocLenPerDecode := by
      unfold SpecConfig.checkedTokens
      rw [halg]
      exact Nat.mul_comm _ _
    have hrank (info : SpecReqsInfo cfg ρ) := info.newTokensRequired_eq pageSize
    simp only [hchecked] at hrank
    constructor
    · intro h info hinfo
      rw [tokensReserved_legacy info hmode, hrank]
      exact h.legacy hmode info hinfo
    · intro h
      refine ⟨fun _ info hinfo => ?_, fun hdflash => ?_⟩
      · rw [← tokensReserved_legacy info hmode, ← hrank]
        exact h info hinfo
      · rw [halg] at hdflash
        cases hdflash
  | false =>
    constructor
    · intro h info hinfo
      rw [tokensReserved_other info hmode, info.newTokensRequired_eq]
      by_cases hstate : cfg.algorithm = .dflash → cfg.enableOverlap = true →
          info.futureIndices ≠ none
      · apply addedTokens_mono
        intro row
        exact max_le_max_left _ (Nat.add_le_add_left (reserveTokens_le_checked info hstate) _)
      · push Not at hstate
        obtain ⟨halg, hoverlap, hnone⟩ := hstate
        have hcount := h.dflash halg hoverlap info hinfo hnone
        unfold SpecConfig.reserveTokens SpecConfig.checkedTokens
        rw [halg, hoverlap, hnone]
        simpa [Nat.mul_comm] using hcount
    · intro h
      refine ⟨fun hlegacy => ?_, fun halg hoverlap info hinfo hnone => ?_⟩
      · rw [hmode] at hlegacy
        cases hlegacy
      · have hcount := h info hinfo
        rw [tokensReserved_other info hmode, info.newTokensRequired_eq] at hcount
        unfold SpecConfig.reserveTokens SpecConfig.checkedTokens at hcount
        rw [halg, hoverlap, hnone] at hcount
        simpa [Nat.mul_comm] using hcount

/-! ### Scarce pools -/

/-- The pages `new_tokens_required_next_decode` counts. -/
def pagesRequired (pageSize : Nat) (info : SpecReqsInfo cfg ρ) : Nat :=
  (info.rows.map fun row =>
    pagesFor pageSize (max row.kvAllocatedLen
      (row.req.kvCommittedLen + cfg.checkedTokens info.futureIndices.isSome)) -
      pagesFor pageSize row.kvAllocatedLen).sum

theorem pagesRequired_mul (pageSize : Nat) (info : SpecReqsInfo cfg ρ) :
    pagesRequired pageSize info * pageSize = info.newTokensRequiredNextDecode pageSize := by
  unfold pagesRequired
  rw [info.newTokensRequired_eq, addedTokens, ← List.sum_map_mul_right]
  congr 1
  apply List.map_congr_left
  intro row _
  exact Nat.sub_mul _ _ _

/-- A pool in which every rank has the given number of pages. -/
def poolOf (pageSize : Nat) (pages : Nat → Nat) : PoolAllocator :=
  if pageSize = 1 then
    .token ⟨0, fun rank => List.range' 1 (pages rank), fun _ => [], true⟩
  else
    .paged ⟨pageSize, 0, 0, fun rank => List.range' 1 (pages rank), fun _ => [], fun _ => [], true⟩

theorem pageSize_poolOf (pageSize : Nat) (pages : Nat → Nat) :
    (poolOf pageSize pages).pageSize = pageSize := by
  unfold poolOf
  split
  · rename_i hone
    exact hone.symm
  · rfl

theorem availableSize_poolOf (pages : Nat → Nat) (rank : Nat) :
    (poolOf pageSize pages).availableSize rank = pages rank * pageSize := by
  unfold poolOf
  split
  · rename_i hone
    rw [hone, Nat.mul_one]
    exact List.length_range'
  · show ((List.range' 1 (pages rank)).length + 0) * pageSize = _
    rw [List.length_range', Nat.add_zero]

/-- The pools of a server that keeps no prefixes, with as much left as the check asks
for. -/
def scarceMem (pageSize : Nat) (batch : SpecBatch cfg ρ) : DecodeMem Unit ρ where
  tree := ()
  allocator := .pool (poolOf pageSize fun rank =>
    batch[rank]?.elim 0 (pagesRequired pageSize))
  reqToToken := fun _ _ => 0
  released := []

/-- A cache that evicts nothing. -/
def bareCache (ρ : Type) : TreeCache Unit ρ where
  kind := .chunk
  evict _ a _ := .ok ((), a)
  releaseKvCache _ a _ _ := .ok ((), a)
  evictReqSwa _ a _ _ _ _ := .ok ((), a)
  evict_frees h := by
    cases h
    exact .refl _
  releaseKvCache_frees h := by
    cases h
    exact .refl _
  evictReqSwa_frees h := by
    cases h
    exact .refl _

/-- A server without a sliding window. -/
def bareConfig : DecodeConfig ρ where
  slidingWindowSize := none
  evictionIntervalMultiplier := 1
  enableOverlap := false
  retractDecodeSteps := 20
  progress _ := ⟨0, 0, 0⟩

theorem evictTreeCacheIfNeeded_bareCache (needs : List (Nat × Nat)) (m : DecodeMem Unit ρ) :
    (bareCache ρ).evictTreeCacheIfNeeded needs m = .ok m := by
  unfold TreeCache.evictTreeCacheIfNeeded
  induction needs with
  | nil => rfl
  | cons need needs ih =>
    rw [List.foldlM_cons]
    exact ih

theorem checkDecodeMem_scarceMem (batch : SpecBatch cfg ρ) :
    batch.checkDecodeMem (bareCache ρ) (scarceMem pageSize batch) =
      .ok (scarceMem pageSize batch, true) := by
  have hsize : (scarceMem pageSize batch).allocator.pageSize = pageSize := pageSize_poolOf _ _
  have hfits : isAvailableSizeSufficient (scarceMem pageSize batch).allocator
      (batch.requirements pageSize 0) = true := by
    apply isAvailableSizeSufficient_iff.mpr
    intro need hneed q hq
    obtain ⟨i, info, hi, rfl⟩ := of_mem_requirements hneed
    rw [Nat.zero_add]
    obtain rfl := List.mem_singleton.mp hq
    rw [availableSize_poolOf, hi, ← pagesRequired_mul pageSize]
    exact le_rfl
  unfold checkDecodeMem
  dsimp only
  rw [hsize, evictTreeCacheIfNeeded_bareCache, ok_bind, hfits]
  rfl

/-- Whether a check that passes is enough is decided by the lengths of the rows. -/
theorem checkSuffices_iff_covered (hpage : 0 < pageSize) (batch : SpecBatch cfg ρ) :
    CheckSuffices pageSize batch ↔ Covered pageSize batch := by
  rw [covered_iff]
  constructor
  · intro h info hinfo
    by_contra hless
    obtain ⟨i, hi⟩ := List.getElem?_of_mem hinfo
    let mem := scarceMem pageSize batch
    have hpool : mem.allocator = .pool (poolOf pageSize fun rank =>
      batch[rank]?.elim 0 (pagesRequired pageSize)) := rfl
    have hsize := pageSize_poolOf pageSize fun rank =>
      batch[rank]?.elim 0 (pagesRequired pageSize)
    have hwf : mem.allocator.WellFormed := by
      constructor
      · show 0 < (poolOf pageSize _).pageSize
        rw [hsize]
        exact hpage
      · intro q hq
        obtain rfl := List.mem_singleton.mp hq
        rfl
    apply h Unit (bareCache ρ) bareConfig mem mem hwf hsize (checkDecodeMem_scarceMem batch)
    apply prepareRanks_outOfMemory rfl hpool (hsize.symm ▸ hpage) hi
    rw [hsize, availableSize_poolOf, Nat.zero_add, hi]
    have hdemand := pagesRequired_mul pageSize info
    have hlt := not_le.mp hless
    rw [← hdemand] at hlt
    exact hlt
  · exact checkSuffices_of_le

/-! ### Rounds of a batch -/

/-- Rounds that passed their check and were served, each with a number of accepted
tokens for every row. -/
inductive Rounds (cache : TreeCache τ ρ) (dcfg : DecodeConfig ρ) (start : SpecBatch cfg ρ)
    (mem : DecodeMem τ ρ) : SpecBatch cfg ρ → DecodeMem τ ρ → Prop where
  | none : Rounds cache dcfg start mem start mem
  | round {batch batch' : SpecBatch cfg ρ} {m m' m'' : DecodeMem τ ρ} (accepted : Nat → Nat → Nat)
      (earlier : Rounds cache dcfg start mem batch m)
      (checked : batch.checkDecodeMem cache m = .ok (m', true))
      (prepared : batch.prepareForDecode cache dcfg m' = .ok (batch', m''))
      (least : ∀ rank i, 1 ≤ accepted rank i)
      (most : ∀ rank i, accepted rank i ≤ cfg.allocLenPerDecode) :
      Rounds cache dcfg start mem (batch'.verified accepted) m''

def legacyConfig : SpecConfig := ⟨.eagle3, false, 2, 0⟩

def shortReq : BatchReq Unit where
  uid := 0
  samplingParams := ⟨16, (), (), 1, (), 0⟩
  returnLogprob := false
  returnOutputLogprobOnly := false
  returnHiddenStates := false
  stream := false
  hasGrammar := false
  topLogprobsNum := 0
  tokenIdsLogprob := Option.none
  fillLen := 2
  kvCommittedLen := 2
  reqPoolIdx := some 0
  isChunked := 0
  finished := false
  nextToken := Option.none

/-- One request with a prompt of two tokens. -/
def prefilledBatch : SpecBatch legacyConfig Unit :=
  [⟨[SpecRow.prefilled legacyConfig shortReq 0 2], Option.none, []⟩]

/-- Two of the six slots are taken by the prompt. -/
def smallMem : DecodeMem Unit Unit where
  tree := ()
  allocator := .pool (.token ⟨6, fun _ => [3, 4, 5, 6], fun _ => [], true⟩)
  reqToToken := fun _ i => (i + 1).toNat
  released := []

theorem checkSuffices_prefilled : CheckSuffices 1 prefilledBatch := by
  apply (checkSuffices_iff_covered (by decide) prefilledBatch).mpr
  constructor
  · intro _
    decide
  · intro h
    cases h

/-- After two rounds that accept everything the check asks for nothing, and the
reservation of two more slots fails. -/
theorem outOfMemory_afterTwoRounds :
    ∃ batch m m', Rounds (bareCache Unit) bareConfig prefilledBatch smallMem batch m ∧
      batch.checkDecodeMem (bareCache Unit) m = .ok (m', true) ∧
      batch.prepareForDecode (bareCache Unit) bareConfig m' = .error .outOfMemory := by
  have hall : ∀ _ _ : Nat, 1 ≤ 2 := fun _ _ => by decide
  have hmost : ∀ _ _ : Nat, 2 ≤ legacyConfig.allocLenPerDecode := fun _ _ => by decide
  exact ⟨_, _, _, .round (fun _ _ => 2) (.round (fun _ _ => 2) .none rfl rfl hall hmost) rfl rfl
    hall hmost, rfl, rfl⟩

end SpecBatch
end SglJax.Managers
