import SglJax.Managers.PrefillAdder

/-! How many SWA tokens a decoding request holds between two evictions. The tick of
`maybe_evict_swa` frees all but a window, and one slot is allocated in each step
until the next tick. -/
namespace SglJax.Managers.SwaPeak

open MemCache

/-- What `maybe_evict_swa` and the allocation of a decode step read and change of a
request. The tree owns whole pages of its row. -/
structure SwaReq where
  originInputLen : Nat
  outputLen : Nat
  decodeBatchIdx : Nat
  kvAllocatedLen : Nat
  swaEvictedSeqlen : Nat
  treePages : Nat
deriving DecidableEq, Repr

def SwaReq.seqlen (req : SwaReq) : Nat := req.originInputLen + req.outputLen

structure SwaConfig where
  kind : TreeCacheKind
  enableOverlap : Bool
  slidingWindowSize : Nat
  pageSize : Nat
  multiplier : ℚ
  window_pos : 0 < slidingWindowSize
  page_pos : 0 < pageSize

namespace SwaConfig

variable (cfg : SwaConfig) (req : SwaReq)

def interval : Nat := swaEvictionInterval cfg.slidingWindowSize cfg.pageSize cfg.multiplier

/-- The common part of the evictions: from `old` on, all but a window and a page,
in whole pages. -/
def evictFrom (old preLen : Nat) : SwaReq :=
  let newEvicted := max old (preLen - cfg.slidingWindowSize - cfg.pageSize)
  let newEvicted :=
    if cfg.pageSize > 1 then newEvicted / cfg.pageSize * cfg.pageSize else newEvicted
  if newEvicted ≤ old then { req with swaEvictedSeqlen := old }
  else { req with swaEvictedSeqlen := newEvicted }

/-- `_evict_swa`; the `evict_req_swa` of both tree caches leave the tree's part of
the row alone. -/
def evictSwa (preLen : Nat) : SwaReq :=
  match cfg.kind with
  | .chunk => cfg.evictFrom req req.swaEvictedSeqlen preLen
  | .radix | .unified =>
    cfg.evictFrom req (max req.swaEvictedSeqlen (req.treePages * cfg.pageSize)) preLen

/-- `maybe_evict_swa` for a request of a decode batch -/
def maybeEvictSwa : SwaReq :=
  if swaEvictionDue cfg.enableOverlap cfg.interval req.decodeBatchIdx cfg.kind then
    cfg.evictSwa req (req.seqlen - 1)
  else req

/-- `prepare_for_decode` for a request of the batch -/
def prepareForDecode : SwaReq :=
  let req := cfg.maybeEvictSwa req
  { req with
    decodeBatchIdx := req.decodeBatchIdx + 1
    kvAllocatedLen := req.kvAllocatedLen + 1 }

/-- The decode step with which the ticks of a cache begin. -/
def firstTick : Nat :=
  match cfg.kind with
  | .unified => if cfg.enableOverlap then 1 else 0
  | .chunk => 0
  | .radix => 1

end SwaConfig

/-- A request with the results of its batches that have not been processed yet. -/
structure SwaState where
  req : SwaReq
  pending : Nat
deriving DecidableEq, Repr

/-- A decode step is prepared with no result outstanding, or one under overlap; a
result brings the next output token. -/
inductive Step (cfg : SwaConfig) : SwaState → SwaState → Prop
  | decode (req : SwaReq) (pending : Nat) :
    pending ≤ (if cfg.enableOverlap then 1 else 0) →
    Step cfg ⟨req, pending⟩ ⟨cfg.prepareForDecode req, pending + 1⟩
  | result (req : SwaReq) (pending : Nat) :
    Step cfg ⟨req, pending + 1⟩ ⟨{ req with outputLen := req.outputLen + 1 }, pending⟩

/-- A prompt whose KV is allocated, the result of its prefill outstanding. -/
def start (promptLen evicted treePages : Nat) : SwaState :=
  ⟨⟨promptLen, 0, 0, promptLen, evicted, treePages⟩, 1⟩

/-- What a request goes through while it decodes. -/
inductive Run (cfg : SwaConfig) (promptLen evicted treePages : Nat) : SwaState → Prop
  | start : Run cfg promptLen evicted treePages (start promptLen evicted treePages)
  | step {s s' : SwaState} :
    Run cfg promptLen evicted treePages s → Step cfg s s' → Run cfg promptLen evicted treePages s'

section Ticks

variable {cfg : SwaConfig} {req : SwaReq}

theorem interval_pos (cfg : SwaConfig) : cfg.pageSize ≤ cfg.interval := by
  have hpage := cfg.page_pos
  have hone := Nat.div_le_div_right (c := cfg.pageSize)
    (Nat.le_max_left cfg.pageSize ⌊cfg.slidingWindowSize * cfg.multiplier⌋.toNat)
  rw [Nat.div_self hpage] at hone
  have := Nat.mul_le_mul_right cfg.pageSize hone
  rw [Nat.one_mul] at this
  exact this

/-- The steps that tick: one for each interval from the first on, but none of a
`SWARadixCache` whose interval is one step. -/
theorem due_iff (cfg : SwaConfig) (hticks : ¬ (cfg.kind = .radix ∧ cfg.interval = 1)) (i : Nat) :
    swaEvictionDue cfg.enableOverlap cfg.interval i cfg.kind = true ↔
      cfg.firstTick ≤ i ∧ (i - cfg.firstTick) % cfg.interval = 0 := by
  have hpos := lt_of_lt_of_le cfg.page_pos (interval_pos cfg)
  unfold SwaConfig.firstTick swaEvictionDue
  cases hkind : cfg.kind with
  | unified => simp
  | chunk => simp
  | radix =>
    have hlong : 1 < cfg.interval := by
      by_contra hshort
      exact hticks ⟨hkind, by omega⟩
    dsimp only
    rw [beq_iff_eq]
    constructor
    · intro h
      have hge : 1 ≤ i := by
        by_contra hzero
        rw [Nat.eq_zero_of_not_pos hzero, Nat.zero_mod] at h
        omega
      refine ⟨hge, Nat.sub_mod_eq_zero_of_mod_eq ?_⟩
      rw [h, Nat.mod_eq_of_lt hlong]
    · rintro ⟨hge, hmod⟩
      obtain ⟨q, hq⟩ := Nat.dvd_of_mod_eq_zero hmod
      obtain rfl : i = cfg.interval * q + 1 := by omega
      rw [Nat.mul_add_mod, Nat.mod_eq_of_lt hlong]

/-- A tick leaves a window and at most two pages. -/
theorem evictFrom_le (cfg : SwaConfig) (req : SwaReq) (old preLen : Nat) :
    (preLen - cfg.slidingWindowSize - cfg.pageSize) / cfg.pageSize * cfg.pageSize ≤
      (cfg.evictFrom req old preLen).swaEvictedSeqlen := by
  have hpage := cfg.page_pos
  have hle := Nat.div_le_div_right (c := cfg.pageSize)
    (Nat.le_max_right old (preLen - cfg.slidingWindowSize - cfg.pageSize))
  have hmul := Nat.mul_le_mul_right cfg.pageSize hle
  have hself := Nat.div_mul_le_self (preLen - cfg.slidingWindowSize - cfg.pageSize) cfg.pageSize
  unfold SwaConfig.evictFrom
  dsimp only
  split
  · split <;> dsimp only <;> omega
  · split <;> dsimp only <;> omega

theorem evictSwa_le (cfg : SwaConfig) (req : SwaReq) (preLen : Nat) :
    (preLen - cfg.slidingWindowSize - cfg.pageSize) / cfg.pageSize * cfg.pageSize ≤
      (cfg.evictSwa req preLen).swaEvictedSeqlen := by
  unfold SwaConfig.evictSwa
  cases cfg.kind with
  | chunk => exact evictFrom_le cfg req _ preLen
  | radix => exact evictFrom_le cfg req _ preLen
  | unified => exact evictFrom_le cfg req _ preLen

/-- An eviction changes nothing else. -/
theorem evictSwa_rest (cfg : SwaConfig) (req : SwaReq) (preLen : Nat) :
    (cfg.evictSwa req preLen).seqlen = req.seqlen ∧
      (cfg.evictSwa req preLen).kvAllocatedLen = req.kvAllocatedLen ∧
      (cfg.evictSwa req preLen).decodeBatchIdx = req.decodeBatchIdx := by
  have hfrom (old : Nat) : (cfg.evictFrom req old preLen).seqlen = req.seqlen ∧
      (cfg.evictFrom req old preLen).kvAllocatedLen = req.kvAllocatedLen ∧
      (cfg.evictFrom req old preLen).decodeBatchIdx = req.decodeBatchIdx := by
    unfold SwaConfig.evictFrom
    dsimp only
    generalize (if cfg.pageSize > 1 then _ else _) = newEvicted
    split
    · exact ⟨rfl, rfl, rfl⟩
    · exact ⟨rfl, rfl, rfl⟩
  unfold SwaConfig.evictSwa
  cases cfg.kind with
  | chunk => exact hfrom _
  | radix => exact hfrom _
  | unified => exact hfrom _

theorem maybeEvictSwa_rest (cfg : SwaConfig) (req : SwaReq) :
    (cfg.maybeEvictSwa req).seqlen = req.seqlen ∧
      (cfg.maybeEvictSwa req).kvAllocatedLen = req.kvAllocatedLen ∧
      (cfg.maybeEvictSwa req).decodeBatchIdx = req.decodeBatchIdx := by
  unfold SwaConfig.maybeEvictSwa
  split
  · exact evictSwa_rest cfg req _
  · exact ⟨rfl, rfl, rfl⟩

end Ticks

/-! ### Between two ticks -/

theorem mod_succ {m n : Nat} (hn : 0 < n) (h : (m + 1) % n ≠ 0) : (m + 1) % n = m % n + 1 := by
  have hlt := Nat.mod_lt m hn
  rw [← Nat.mod_add_mod] at h ⊢
  rcases Nat.lt_or_ge (m % n + 1) n with hroom | hfull
  · exact Nat.mod_eq_of_lt hroom
  · exfalso
    apply h
    rw [show m % n + 1 = n by omega, Nat.mod_self]

/-- Up to two tokens of a request are not in its output yet, and since its last
tick it has held a window, a page and what was allocated since. -/
structure Held (cfg : SwaConfig) (s : SwaState) : Prop where
  tokens : s.req.seqlen + s.pending = s.req.kvAllocatedLen + 1
  evicted : cfg.firstTick < s.req.decodeBatchIdx →
    (s.req.kvAllocatedLen - ((s.req.decodeBatchIdx - 1 - cfg.firstTick) % cfg.interval + 2) -
      cfg.slidingWindowSize - cfg.pageSize) / cfg.pageSize * cfg.pageSize ≤ s.req.swaEvictedSeqlen

section Runs

variable {cfg : SwaConfig} {s s' : SwaState} {promptLen evicted treePages : Nat}

theorem held_start (cfg : SwaConfig) (promptLen evicted treePages : Nat) :
    Held cfg (start promptLen evicted treePages) where
  tokens := rfl
  evicted := fun h => absurd h (Nat.not_lt_zero _)

theorem Held.decode {req : SwaReq} {pending : Nat} (h : Held cfg ⟨req, pending⟩)
    (hticks : ¬ (cfg.kind = .radix ∧ cfg.interval = 1)) (hpending : pending ≤ 1) :
    Held cfg ⟨cfg.prepareForDecode req, pending + 1⟩ := by
  have htokens := h.tokens
  obtain ⟨hlen, halloc, hidx⟩ := maybeEvictSwa_rest cfg req
  dsimp only at htokens
  refine ⟨?_, ?_⟩
  · change (cfg.maybeEvictSwa req).seqlen + (pending + 1) =
      (cfg.maybeEvictSwa req).kvAllocatedLen + 1 + 1
    rw [hlen, halloc]
    omega
  · change cfg.firstTick < (cfg.maybeEvictSwa req).decodeBatchIdx + 1 →
      ((cfg.maybeEvictSwa req).kvAllocatedLen + 1 -
        (((cfg.maybeEvictSwa req).decodeBatchIdx + 1 - 1 - cfg.firstTick) % cfg.interval + 2) -
        cfg.slidingWindowSize - cfg.pageSize) / cfg.pageSize * cfg.pageSize ≤
      (cfg.maybeEvictSwa req).swaEvictedSeqlen
    rw [halloc, hidx, Nat.add_sub_cancel]
    intro hfirst
    unfold SwaConfig.maybeEvictSwa
    by_cases hdue : swaEvictionDue cfg.enableOverlap cfg.interval req.decodeBatchIdx cfg.kind = true
    · -- The tick looks at all tokens but the last two.
      rw [if_pos hdue, ((due_iff cfg hticks _).mp hdue).2]
      refine le_trans ?_ (evictSwa_le cfg req _)
      apply Nat.mul_le_mul_right
      apply Nat.div_le_div_right
      omega
    · rw [if_neg hdue]
      rw [due_iff cfg hticks, not_and] at hdue
      have hmod := hdue (by omega)
      have hlater : cfg.firstTick < req.decodeBatchIdx := by
        by_contra hnot
        apply hmod
        rw [Nat.sub_eq_zero_of_le (by omega), Nat.zero_mod]
      have hold := h.evicted hlater
      have hnext : (req.decodeBatchIdx - cfg.firstTick) % cfg.interval =
          (req.decodeBatchIdx - 1 - cfg.firstTick) % cfg.interval + 1 := by
        have hsplit : req.decodeBatchIdx - cfg.firstTick =
            req.decodeBatchIdx - 1 - cfg.firstTick + 1 := by omega
        rw [hsplit] at hmod ⊢
        exact mod_succ (lt_of_lt_of_le cfg.page_pos (interval_pos cfg)) hmod
      rw [hnext]
      dsimp only at hold
      convert hold using 3
      omega

theorem Held.step (h : Held cfg s) (hticks : ¬ (cfg.kind = .radix ∧ cfg.interval = 1))
    (hstep : Step cfg s s') : Held cfg s' := by
  cases hstep with
  | decode req pending hpending =>
    refine h.decode hticks (hpending.trans ?_)
    split <;> omega
  | result req pending =>
    have htokens := h.tokens
    refine ⟨?_, h.evicted⟩
    dsimp only [SwaReq.seqlen] at htokens ⊢
    omega

theorem Run.held (hrun : Run cfg promptLen evicted treePages s)
    (hticks : ¬ (cfg.kind = .radix ∧ cfg.interval = 1)) : Held cfg s := by
  induction hrun with
  | start => exact held_start cfg _ _ _
  | step _ hstep ih => exact ih.step hticks hstep

end Runs

/-! ### The bound -/

theorem ceilPagedTokens_add_pages {pageSize : Nat} (hpage : 0 < pageSize) (k x : Int) :
    ceilPagedTokens pageSize (k * pageSize + x) = k * pageSize + ceilPagedTokens pageSize x := by
  unfold ceilPagedTokens
  have hsplit : -(k * (pageSize : Int) + x) = -x + -k * pageSize := by ring
  rw [hsplit, Int.add_mul_ediv_right _ _ (by omega)]
  ring

/-- What was allocated fits into the peak and the pages given back. -/
theorem allocated_le {cfg : SwaConfig} {allocated since evicted : Nat}
    (hsince : since < cfg.interval)
    (hevicted : (allocated - (since + 2) - cfg.slidingWindowSize - cfg.pageSize) /
      cfg.pageSize * cfg.pageSize ≤ evicted) :
    ceilPagedTokens cfg.pageSize allocated - evicted ≤ ceilPagedTokens cfg.pageSize
      (swaEvictionPeakTokens cfg.slidingWindowSize cfg.pageSize cfg.multiplier : Nat) := by
  have hpage := cfg.page_pos
  have hfits : allocated ≤ (allocated - (since + 2) - cfg.slidingWindowSize - cfg.pageSize) /
      cfg.pageSize * cfg.pageSize +
      swaEvictionPeakTokens cfg.slidingWindowSize cfg.pageSize cfg.multiplier := by
    have hdiv := Nat.div_add_mod
      (allocated - (since + 2) - cfg.slidingWindowSize - cfg.pageSize) cfg.pageSize
    have hmod := Nat.mod_lt
      (allocated - (since + 2) - cfg.slidingWindowSize - cfg.pageSize) hpage
    rw [Nat.mul_comm] at hdiv
    change since < swaEvictionInterval cfg.slidingWindowSize cfg.pageSize cfg.multiplier at hsince
    unfold swaEvictionPeakTokens
    omega
  have hceil := ceilPagedTokens_mono cfg.pageSize (Int.ofNat_le.mpr hfits)
  have hcast : (((allocated - (since + 2) - cfg.slidingWindowSize - cfg.pageSize) /
      cfg.pageSize * cfg.pageSize : Nat) : Int) ≤ evicted := Int.ofNat_le.mpr hevicted
  rw [Int.natCast_add, Int.natCast_mul, ceilPagedTokens_add_pages hpage, ← Int.natCast_mul] at hceil
  omega

/-- The live tokens of a request stay under the peak from its first tick on. -/
def StaysUnderPeak (cfg : SwaConfig) : Prop :=
  ∀ promptLen evicted treePages s, Run cfg promptLen evicted treePages s →
    cfg.firstTick < s.req.decodeBatchIdx →
    ceilPagedTokens cfg.pageSize s.req.kvAllocatedLen - s.req.swaEvictedSeqlen ≤
      ceilPagedTokens cfg.pageSize
        (swaEvictionPeakTokens cfg.slidingWindowSize cfg.pageSize cfg.multiplier : Nat)

section Overrun

variable {cfg : SwaConfig}

/-- With an interval of one step a `SWARadixCache` has no tick. -/
theorem maybeEvictSwa_radix (hkind : cfg.kind = .radix) (hone : cfg.interval = 1) (req : SwaReq) :
    cfg.maybeEvictSwa req = req := by
  unfold SwaConfig.maybeEvictSwa
  rw [hkind, hone, if_neg]
  simp [swaEvictionDue, Nat.mod_one]

/-- Two decode steps of a prompt that is longer than the peak. -/
theorem run_two_steps (hkind : cfg.kind = .radix) (hone : cfg.interval = 1) (promptLen : Nat) :
    Run cfg promptLen 0 0 ⟨⟨promptLen, 2, 2, promptLen + 2, 0, 0⟩, 1⟩ := by
  have hdecode (req : SwaReq) : Step cfg ⟨req, 0⟩ ⟨{ req with
      decodeBatchIdx := req.decodeBatchIdx + 1
      kvAllocatedLen := req.kvAllocatedLen + 1 }, 1⟩ := by
    have := (Step.decode req 0 (Nat.zero_le _) : Step cfg _ _)
    rw [SwaConfig.prepareForDecode, maybeEvictSwa_radix hkind hone] at this
    exact this
  have hfirst := (Run.start : Run cfg promptLen 0 0 _).step (.result _ 0)
  have hsecond := (hfirst.step (hdecode _)).step (.result _ 0)
  exact hsecond.step (hdecode _)

/-- The bound holds unless a `SWARadixCache` has an interval of one step. -/
theorem staysUnderPeak_iff (cfg : SwaConfig) :
    StaysUnderPeak cfg ↔ ¬ (cfg.kind = .radix ∧ cfg.interval = 1) := by
  constructor
  · rintro hpeak ⟨hkind, hone⟩
    have hpage : cfg.pageSize = 1 := by
      have := interval_pos cfg
      have := cfg.page_pos
      omega
    have hrun := run_two_steps hkind hone (cfg.slidingWindowSize + 3)
    have hlive := hpeak _ _ _ _ hrun (by
      unfold SwaConfig.firstTick
      rw [hkind]
      exact Nat.one_lt_two)
    have hinterval : swaEvictionInterval cfg.slidingWindowSize cfg.pageSize cfg.multiplier = 1 :=
      hone
    rw [swaEvictionPeakTokens, hinterval, hpage] at hlive
    simp only [ceilPagedTokens, Nat.cast_one, Int.ediv_one, neg_neg, mul_one] at hlive
    omega
  · intro hticks promptLen evicted treePages s hrun hfirst
    refine allocated_le ?_ ((hrun.held hticks).evicted hfirst)
    exact Nat.mod_lt _ (lt_of_lt_of_le cfg.page_pos (interval_pos cfg))

end Overrun

/-- A window of one token and pages of one slot. -/
def oneTokenWindow : SwaConfig where
  kind := .radix
  enableOverlap := false
  slidingWindowSize := 1
  pageSize := 1
  multiplier := 1
  window_pos := Nat.one_pos
  page_pos := Nat.one_pos

/-- After two steps of a prompt of ten tokens all twelve are live, the peak being
four. -/
theorem oneTokenWindow_overruns : ∃ s, Run oneTokenWindow 10 0 0 s ∧
    oneTokenWindow.firstTick < s.req.decodeBatchIdx ∧
    ceilPagedTokens 1 s.req.kvAllocatedLen - s.req.swaEvictedSeqlen = 12 ∧
    ceilPagedTokens 1 (swaEvictionPeakTokens 1 1 1 : Nat) = 4 ∧ ¬ StaysUnderPeak oneTokenWindow := by
  have hone : oneTokenWindow.interval = 1 := by decide +kernel
  have hpeak : ceilPagedTokens 1 (swaEvictionPeakTokens 1 1 1 : Nat) = 4 := by decide +kernel
  have hrun := (run_two_steps rfl hone 10 : Run oneTokenWindow 10 0 0 _)
  refine ⟨_, hrun, by decide, rfl, hpeak, ?_⟩
  intro hunder
  have hlive := hunder _ _ _ _ hrun (by decide)
  change (12 : Int) ≤ ceilPagedTokens 1 (swaEvictionPeakTokens 1 1 1 : Nat) at hlive
  rw [hpeak] at hlive
  omega

end SglJax.Managers.SwaPeak
