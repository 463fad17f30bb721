import SglJax.Managers.DecodeSafety
import SglJax.Managers.PrefillMemory
import SglJax.Managers.RejectedAdmission
import SglJax.MemCache.RadixBudget

/-! Admission keeps what it promises: the pages of the admitted requests stay within
what is free or can be evicted, so `prepare_for_extend` finds them all. -/
namespace SglJax.Managers

open MemCache

/-! ### Whole pages -/

section Pages

variable {pageSize : Nat} {tokens bound : Int}

theorem dvd_ceilPagedTokens (pageSize : Nat) (tokens : Int) :
    (pageSize : Int) ∣ ceilPagedTokens pageSize tokens := Dvd.intro_left _ rfl

theorem le_ceilPagedTokens (hpage : 0 < pageSize) (tokens : Int) :
    tokens ≤ ceilPagedTokens pageSize tokens := by
  unfold ceilPagedTokens
  have hdiv := Int.ediv_mul_le (-tokens) (b := (pageSize : Int)) (by omega)
  rw [Int.neg_mul]
  omega

/-- Rounding up stays below any whole number of pages. -/
theorem ceilPagedTokens_le (hpage : 0 < pageSize) (hwhole : (pageSize : Int) ∣ bound)
    (hle : tokens ≤ bound) : ceilPagedTokens pageSize tokens ≤ bound := by
  obtain ⟨k, rfl⟩ := hwhole
  unfold ceilPagedTokens
  have hdiv : -k ≤ -tokens / (pageSize : Int) := by
    rw [Int.le_ediv_iff_mul_le (by omega)]
    rw [Int.neg_mul, Int.mul_comm]
    omega
  rw [Int.mul_comm]
  apply Int.mul_le_mul_of_nonneg_left
  · omega
  · omega

@[simp] theorem ceilPagedTokens_zero (pageSize : Nat) : ceilPagedTokens pageSize 0 = 0 := by
  simp [ceilPagedTokens]

theorem ceilPagedTokens_of_dvd (hpage : 0 < pageSize) (hwhole : (pageSize : Int) ∣ tokens) :
    ceilPagedTokens pageSize tokens = tokens :=
  le_antisymm (ceilPagedTokens_le hpage hwhole le_rfl) (le_ceilPagedTokens hpage tokens)

@[simp] theorem ceilPagedTokens_ceil (hpage : 0 < pageSize) (tokens : Int) :
    ceilPagedTokens pageSize (ceilPagedTokens pageSize tokens) = ceilPagedTokens pageSize tokens :=
  ceilPagedTokens_of_dvd hpage (dvd_ceilPagedTokens _ _)

/-- A chunk of whole pages that is too short for all the tokens is below them. -/
theorem whole_chunk_lt (hpage : 0 < pageSize) (left : Int)
    (hshort : ¬ ceilPagedTokens pageSize tokens ≤ left) :
    left / pageSize * pageSize ≤ tokens := by
  by_contra hover
  have hfloor := Int.ediv_mul_le left (b := (pageSize : Int)) (by omega)
  have hceil := ceilPagedTokens_le hpage (Dvd.intro_left (left / pageSize) rfl)
    (by omega : tokens ≤ left / pageSize * pageSize)
  omega

end Pages

namespace PrefillAdder

variable {τ R Λ ρ : Type}

/-! ### One admission -/

/-- `b` is `a` with one more request, reserved for in whole pages. -/
structure Admitted (a b : PrefillAdder τ R) (rank : Nat) (req : WaitingReq R) : Prop where
  canRunList : b.canRunList = Function.update a.canRunList rank (a.canRunList rank ++ [req])
  pageSize : b.pageSize = a.pageSize
  total : ∀ r, a.remTotalTokenOffset r +
    (if r = rank then (ceilPagedTokens a.pageSize req.extendInputLen : ℚ) else 0) ≤
      b.remTotalTokenOffset r
  cur : ∀ r, a.curRemTokenOffset r +
    (if r = rank then (ceilPagedTokens a.pageSize req.extendInputLen : ℚ) else 0) ≤
      b.curRemTokenOffset r

/-- The lengths `prepare_for_extend` reads. -/
def Runs (req : WaitingReq R) : Prop :=
  0 ≤ req.extendInputLen ∧ req.extendInputLen ≤ req.fillIds.length

section Admitted

variable {cache : AdmissionCache τ R Λ} {a b d : PrefillAdder τ R} {req : WaitingReq R} {rank : Nat}

theorem Admitted.tokensNeeded (h : Admitted a b rank req) (r : Nat) :
    b.tokensNeeded r = a.tokensNeeded r +
      if r = rank then ceilPagedTokens a.pageSize req.extendInputLen else 0 := by
  unfold PrefillAdder.tokensNeeded
  rw [h.canRunList, h.pageSize]
  by_cases hrank : r = rank
  · subst hrank
    simp
  · simp [hrank]

/-- Other fields, as the tree, do not count. -/
theorem Admitted.congr (h : Admitted a b rank req) (hlist : d.canRunList = a.canRunList)
    (hpage : d.pageSize = a.pageSize) (htotal : d.remTotalTokenOffset = a.remTotalTokenOffset)
    (hcur : d.curRemTokenOffset = a.curRemTokenOffset) : Admitted d b rank req where
  canRunList := hlist ▸ h.canRunList
  pageSize := h.pageSize.trans hpage.symm
  total r := by
    rw [htotal, hpage]
    exact h.total r
  cur r := by
    rw [hcur, hpage]
    exact h.cur r

/-- The budget is charged for what the request will take. -/
theorem admitted_update (cache : AdmissionCache τ R Λ) {a d : PrefillAdder τ R} {rank : Nat}
    {req : WaitingReq R} (prefixLen : Nat) (extendInputLen : Int) (maxNewTokens : Nat)
    (hlist : d.canRunList = Function.update a.canRunList rank (a.canRunList rank ++ [req]))
    (hpage : d.pageSize = a.pageSize) (htotal : d.remTotalTokenOffset = a.remTotalTokenOffset)
    (hcur : d.curRemTokenOffset = a.curRemTokenOffset)
    (hsame : ceilPagedTokens a.pageSize extendInputLen =
      ceilPagedTokens a.pageSize req.extendInputLen) :
    Admitted a (updatePrefillBudget cache d rank prefixLen extendInputLen maxNewTokens) rank
      req := by
  have hnew : (0 : ℚ) ≤ maxNewTokens := Nat.cast_nonneg _
  refine ⟨hlist, hpage, ?_, ?_⟩
  · intro r
    simp only [updatePrefillBudget, hpage, hsame, htotal]
    by_cases hrank : r = rank
    · subst hrank
      rw [if_pos rfl, Function.update_self]
      linarith
    · rw [if_neg hrank, Function.update_of_ne hrank, add_zero]
  · intro r
    simp only [updatePrefillBudget, hpage, hsame, hcur]
    by_cases hrank : r = rank
    · subst hrank
      rw [if_pos rfl, Function.update_self]
    · rw [if_neg hrank, Function.update_of_ne hrank, add_zero]

theorem admitted_append (cache : AdmissionCache τ R Λ) (a : PrefillAdder τ R) (chunked : Bool)
    (req : WaitingReq R) (prefixLen maxNewTokens : Nat) :
    Admitted a (updatePrefillBudget cache (append a req.dpRank chunked req) req.dpRank prefixLen
      req.extendInputLen maxNewTokens) req.dpRank req :=
  admitted_update cache prefixLen _ maxNewTokens rfl rfl rfl rfl rfl

/-- The ignore-eos path turns the request away or admits no more of it than it
tested for. -/
theorem ignoreEosAdmit_cases (cache : AdmissionCache τ R Λ) (hruns : Runs req) :
    (ignoreEosAdmit cache a req).1 = a ∨ ∃ req', Runs req' ∧
      req'.extendInputLen ≤ req.extendInputLen ∧
      (ignoreEosAdmit cache a req).1.tree = a.tree ∧
      (ignoreEosAdmit cache a req).1.allocator = a.allocator ∧
      Admitted a (ignoreEosAdmit cache a req).1 req.dpRank req' := by
  unfold ignoreEosAdmit
  dsimp only
  split
  · rename_i rem hrem
    split
    · exact .inr ⟨req, hruns, le_rfl, rfl, rfl, admitted_append cache a _ req _ _⟩
    · rename_i hlong
      split
      · exact .inl rfl
      · rename_i hleft
        have hlen := hruns.2
        have hcut := admitted_append cache a true { req with
          extendInputLen := rem req.dpRank
          fillIds := req.fillIds.take (rem req.dpRank).toNat } 0 0
        refine .inr ⟨_, ⟨?_, ?_⟩, ?_, rfl, rfl, hcut⟩
        · dsimp only
          omega
        · dsimp only
          rw [List.length_take]
          omega
        · dsimp only
          omega
  · exact .inr ⟨req, hruns, le_rfl, rfl, rfl, admitted_append cache a _ req _ _⟩

/-- The lengths that `init_next_round_input` and a load leave. -/
structure Measured (req : WaitingReq R) : Prop where
  extend : req.extendInputLen = (req.fillIds.length : Int) - req.prefixIndices.length
  nonneg : 0 ≤ req.extendInputLen

theorem Measured.runs (h : Measured req) : Runs req :=
  ⟨h.nonneg, by have := h.extend; omega⟩

theorem Measured.cut (h : Measured req) {n : Int} (hpos : 0 ≤ n) (hle : n ≤ req.extendInputLen) :
    Measured { req with
      extendInputLen := n, fillIds := req.fillIds.take (req.prefixIndices.length + n.toNat) } := by
  have hextend := h.extend
  constructor
  · dsimp only
    rw [List.length_take]
    omega
  · exact hpos

theorem capAtBoundary_measured (cache : AdmissionCache τ R Λ) (h : Measured req) :
    Measured (capAtBoundary cache req) ∧
      (capAtBoundary cache req).extendInputLen ≤ req.extendInputLen ∧
      (capAtBoundary cache req).dpRank = req.dpRank ∧
      (capAtBoundary cache req).lastNode = req.lastNode ∧
      (capAtBoundary cache req).prefixIndices = req.prefixIndices := by
  unfold capAtBoundary
  split
  · split
    · rename_i cap _ hlong
      exact ⟨h.cut (Int.natCast_nonneg cap) (by omega), by dsimp only; omega, rfl, rfl, rfl⟩
    · exact ⟨h, le_rfl, rfl, rfl, rfl⟩
  · exact ⟨h, le_rfl, rfl, rfl, rfl⟩

/-- The admission with the request's last node locked again. -/
theorem appendLocked_admitted (cache : AdmissionCache τ R Λ) (a : PrefillAdder τ R)
    {req : WaitingReq R} (chunked : Bool) {extendInputLen : Int} (maxNewTokens : Nat)
    (hruns : Runs req) (hsame : ceilPagedTokens a.pageSize extendInputLen =
      ceilPagedTokens a.pageSize req.extendInputLen) :
    let b := (appendLocked cache a req chunked extendInputLen maxNewTokens).1
    b.tree = (cache.incLockRef a.tree req.lastNode).1 ∧ b.allocator = a.allocator ∧
      ∃ req', Runs req' ∧ req'.extendInputLen = req.extendInputLen ∧
        Admitted a b req.dpRank req' :=
  ⟨rfl, rfl, { req with lockParams := some (cache.incLockRef a.tree req.lastNode).2 }, hruns, rfl,
    admitted_update cache _ _ maxNewTokens rfl rfl rfl rfl hsame⟩

/-- What the tests after the load leave: the same adder, or one with the request's
last node locked and no more of the request than was tested for. -/
def AdmitsLoaded (cache : AdmissionCache τ R Λ) (a : PrefillAdder τ R) (req : WaitingReq R)
    (b : PrefillAdder τ R) : Prop :=
  b = a ∨ (b.tree = (cache.incLockRef a.tree req.lastNode).1 ∧ b.allocator = a.allocator ∧
    ∃ req', Runs req' ∧ req'.extendInputLen ≤ req.extendInputLen ∧ Admitted a b req.dpRank req')

theorem admitLoaded_admits (cache : AdmissionCache τ R Λ) (hpage : 0 < a.pageSize)
    (hreq : Measured req) : AdmitsLoaded cache a req (admitLoaded cache a req).1 := by
  have hstart : Measured { req with lastMatchedPrefixLen := req.prefixIndices.length } :=
    ⟨hreq.extend, hreq.nonneg⟩
  obtain ⟨hcap, hless, hrank, hnode, -⟩ := capAtBoundary_measured cache hstart
  unfold admitLoaded
  dsimp only
  generalize capAtBoundary cache { req with lastMatchedPrefixLen := req.prefixIndices.length } =
    capped at hcap hless hrank hnode ⊢
  generalize boundaryTruncated cache { req with lastMatchedPrefixLen := req.prefixIndices.length } =
    truncated
  dsimp only at hless hrank hnode
  have hceil := ceilPagedTokens_ceil hpage capped.extendInputLen
  have hwhole (chunked : Bool) (maxNewTokens : Nat) : AdmitsLoaded cache a req
      (appendLocked cache a capped chunked (ceilPagedTokens a.pageSize capped.extendInputLen)
        maxNewTokens).1 := by
    obtain ⟨htree, hallocator, req', hruns, hlen, hadmitted⟩ :=
      appendLocked_admitted cache a chunked maxNewTokens hcap.runs hceil
    rw [hnode] at htree
    rw [hrank] at hadmitted
    exact .inr ⟨htree, hallocator, req', hruns, hlen.le.trans hless, hadmitted⟩
  split
  · exact .inl rfl
  · split
    · exact hwhole _ _
    · rename_i rem hrem
      split
      · exact hwhole _ _
      · rename_i hlong
        split
        · exact .inl rfl
        · rename_i hleft
          have hcut := whole_chunk_lt hpage (rem capped.dpRank) hlong
          generalize rem capped.dpRank / (a.pageSize : Int) * a.pageSize = truncLen at hleft hcut ⊢
          obtain ⟨htree, hallocator, req', hruns, hlen, hadmitted⟩ :=
            appendLocked_admitted cache a true 0 (hcap.cut (by omega) hcut).runs rfl
          dsimp only at hlen
          exact .inr ⟨htree.trans (by rw [hnode]), hallocator, req', hruns, by omega,
            hrank ▸ hadmitted⟩

end Admitted

/-! ### What is reserved -/

section Reserved

variable {cache : PrefillCache τ R Λ ρ} {a b : PrefillAdder τ R} {req : WaitingReq R}
  {tree tree' : τ} {p q : PoolAllocator} {held held' : List (Nat × R)} {rank : Nat}
  {tokens : Int}

/-- Beside what is reserved, a rank can get `tokens` more. -/
def RoomFor (cache : PrefillCache τ R Λ ρ) (a : PrefillAdder τ R) (tree : τ) (p : PoolAllocator)
    (rank : Nat) (tokens : Int) : Prop :=
  ∀ r, a.tokensNeeded r + (if r = rank then tokens else 0) ≤ cache.admission.budget tree p r

/-- The ranks can get all that is reserved, and the offsets know of it. -/
structure Reserved (cache : PrefillCache τ R Λ ρ) (a : PrefillAdder τ R) (p : PoolAllocator)
    (held : List (Nat × R)) : Prop where
  allocator : a.allocator = .pool p
  pageSize : a.pageSize = p.pageSize
  sound : cache.Sound a.tree p held
  fits : ∀ r, a.tokensNeeded r ≤ cache.admission.budget a.tree p r
  total : ∀ r, (a.tokensNeeded r : ℚ) ≤ a.remTotalTokenOffset r
  cur : ∀ r, (a.tokensNeeded r : ℚ) ≤ a.curRemTokenOffset r
  runs : ∀ r, ∀ req ∈ a.canRunList r, Runs req

theorem dvd_tokensNeeded (a : PrefillAdder τ R) (rank : Nat) :
    (a.pageSize : Int) ∣ a.tokensNeeded rank := by
  apply List.dvd_sum
  intro x hx
  obtain ⟨req, -, rfl⟩ := List.mem_map.mp hx
  exact dvd_ceilPagedTokens _ _

theorem budget_dvd (hsound : cache.Sound tree p held) (rank : Nat) :
    (p.pageSize : Int) ∣ cache.admission.budget tree p rank := by
  apply dvd_add
  · rw [PoolAllocator.availableSize_eq, Int.natCast_dvd_natCast]
    exact Nat.dvd_mul_left _ _
  · exact (cache.whole_pages hsound rank).2

theorem RoomFor.mono (h : RoomFor cache a tree p rank tokens) {less : Int} (hless : less ≤ tokens)
    (hbudget : ∀ r, cache.admission.budget tree p r ≤ cache.admission.budget tree' q r) :
    RoomFor cache a tree' q rank less := by
  intro r
  have hroom := h r
  have hmore := hbudget r
  split at hroom
  · rename_i hrank
    rw [if_pos hrank]
    omega
  · rename_i hrank
    rw [if_neg hrank]
    omega

/-- All sizes are whole pages, so room for the tokens is room for their pages. -/
theorem RoomFor.pages (h : RoomFor cache a tree p rank tokens) (hpage : a.pageSize = p.pageSize)
    (hsound : cache.Sound tree p held) :
    RoomFor cache a tree p rank (ceilPagedTokens a.pageSize tokens) := by
  have hpos := cache.page_pos hsound
  intro r
  have hroom := h r
  split at hroom
  · rename_i hrank
    rw [if_pos hrank]
    have hneeded := dvd_tokensNeeded a r
    have hbudget := budget_dvd hsound r
    rw [hpage] at hneeded ⊢
    have hceil := ceilPagedTokens_le hpos (dvd_sub hbudget hneeded) (by omega : tokens ≤ _)
    omega
  · rename_i hrank
    rw [if_neg hrank]
    exact hroom

theorem RoomFor.fits (h : RoomFor cache a tree p rank tokens) (hpos : 0 ≤ tokens) (r : Nat) :
    a.tokensNeeded r ≤ cache.admission.budget tree p r := by
  have hroom := h r
  split at hroom
  · omega
  · omega

/-- The adder may change in all that is not reserved. -/
theorem Reserved.move (h : Reserved cache a p held) (hlist : b.canRunList = a.canRunList)
    (hpage : b.pageSize = a.pageSize) (htotal : b.remTotalTokenOffset = a.remTotalTokenOffset)
    (hcur : b.curRemTokenOffset = a.curRemTokenOffset) (hallocator : b.allocator = .pool q)
    (hsame : q.pageSize = p.pageSize) (hsound : cache.Sound b.tree q held')
    (hfits : ∀ r, a.tokensNeeded r ≤ cache.admission.budget b.tree q r) :
    Reserved cache b q held' := by
  have hneeded (r : Nat) : b.tokensNeeded r = a.tokensNeeded r := by
    unfold PrefillAdder.tokensNeeded
    rw [hlist, hpage]
  refine ⟨hallocator, hpage.trans (h.pageSize.trans hsame.symm), hsound, ?_, ?_, ?_, ?_⟩
  · intro r
    rw [hneeded]
    exact hfits r
  · intro r
    rw [hneeded, htotal]
    exact h.total r
  · intro r
    rw [hneeded, hcur]
    exact h.cur r
  · intro r
    rw [hlist]
    exact h.runs r

/-- One more request goes on the account it was tested for. -/
theorem Reserved.admitted (h : Reserved cache a p held) (hadmitted : Admitted a b rank req)
    (hruns : Runs req) (hallocator : b.allocator = .pool q) (hsame : q.pageSize = p.pageSize)
    (hsound : cache.Sound b.tree q held')
    (hroom : RoomFor cache a b.tree q rank (ceilPagedTokens a.pageSize req.extendInputLen)) :
    Reserved cache b q held' := by
  have hneeded := hadmitted.tokensNeeded
  refine ⟨hallocator, hadmitted.pageSize.trans (h.pageSize.trans hsame.symm), hsound, ?_, ?_, ?_, ?_⟩
  · intro r
    rw [hneeded]
    exact hroom r
  · intro r
    have hold := h.total r
    have hnew := hadmitted.total r
    rw [hneeded]
    push_cast
    split at hnew
    · rename_i hrank
      rw [if_pos hrank]
      linarith
    · rename_i hrank
      rw [if_neg hrank]
      linarith
  · intro r
    have hold := h.cur r
    have hnew := hadmitted.cur r
    rw [hneeded]
    push_cast
    split at hnew
    · rename_i hrank
      rw [if_pos hrank]
      linarith
    · rename_i hrank
      rw [if_neg hrank]
      linarith
  · intro r
    rw [hadmitted.canRunList]
    by_cases hrank : r = rank
    · subst hrank
      rw [Function.update_self]
      intro x hx
      rcases List.mem_append.mp hx with hx | hx
      · exact h.runs r x hx
      · rw [List.mem_singleton.mp hx]
        exact hruns
    · rw [Function.update_of_ne hrank]
      exact h.runs r

/-- The test on token counts, read for pages. -/
theorem Reserved.roomFor (h : Reserved cache a p held)
    (hfits : noToken cache.admission { a with tree := tree } req = false)
    (helse : ∀ r, r ≠ req.dpRank →
      cache.admission.evictableSize tree r = cache.admission.evictableSize a.tree r) :
    RoomFor cache a tree p req.dpRank req.extendInputLen := by
  unfold noToken at hfits
  rw [Bool.or_eq_false_iff, decide_eq_false_iff_not, not_le] at hfits
  have htotal := hfits.1
  unfold totalTokens remTotalTokensForDp availableAndEvictable at htotal
  dsimp only at htotal
  rw [h.allocator] at htotal
  dsimp only at htotal
  intro r
  by_cases hrank : r = req.dpRank
  · subst hrank
    have hoffset := h.total req.dpRank
    have hnew : (0 : ℚ) ≤ req.clippedNewTokens := Nat.cast_nonneg _
    rw [if_pos rfl, AdmissionCache.budget]
    push_cast at htotal
    have hcast : ((a.tokensNeeded req.dpRank + req.extendInputLen : Int) : ℚ) <
        ((p.availableSize req.dpRank + cache.admission.evictableSize tree req.dpRank : Int) : ℚ) := by
      push_cast
      linarith
    exact (Int.cast_lt.mp hcast).le
  · have hfit := h.fits r
    unfold AdmissionCache.budget at hfit ⊢
    rw [if_neg hrank, add_zero, helse r hrank]
    exact hfit

/-! ### One call -/

theorem Reserved.ignoreEos (h : Reserved cache a p held) (hruns : Runs req) :
    ∃ q held', Reserved cache (addOneReqIgnoreEos cache.admission a req).1 q held' := by
  have hpos := cache.page_pos h.sound
  unfold addOneReqIgnoreEos
  split
  · exact ⟨p, held, h⟩
  · rename_i hfits
    have hmoved (states : Nat → Option (List (ℚ × Nat))) :
        Reserved cache { a with reqStates := states } p held :=
      h.move rfl rfl rfl rfl h.allocator rfl h.sound h.fits
    dsimp only
    split
    · have hroom : RoomFor cache a a.tree p req.dpRank
          (ceilPagedTokens a.pageSize req.extendInputLen) := by
        unfold ignoreEosNoToken at hfits
        simp only [gt_iff_lt, Bool.or_eq_true, decide_eq_true_eq, not_or, not_lt, le_min_iff] at hfits
        have htotal := hfits.1.2
        unfold remTotalTokensForDp availableAndEvictable at htotal
        rw [h.allocator] at htotal
        intro r
        by_cases hrank : r = req.dpRank
        · subst hrank
          have hoffset := h.total req.dpRank
          rw [if_pos rfl, ← Int.cast_le (R := ℚ), AdmissionCache.budget]
          push_cast at htotal ⊢
          linarith
        · rw [if_neg hrank, add_zero]
          exact h.fits r
      rcases ignoreEosAdmit_cases (a := { a with
          reqStates := Function.update a.reqStates req.dpRank (some (reqStatesWith a req)) })
          cache.admission hruns with hsame | ⟨req', hruns', hless, htree, hallocator, hadmitted⟩
      · rw [hsame]
        exact ⟨p, held, hmoved _⟩
      · refine ⟨p, held, (hmoved _).admitted hadmitted hruns' (hallocator.trans h.allocator) rfl ?_ ?_⟩
        · rw [htree]
          exact h.sound
        · rw [htree]
          apply RoomFor.mono hroom
          · rw [h.pageSize]
            exact ceilPagedTokens_mono _ hless
          · exact fun r => le_rfl
    · exact ⟨p, held, hmoved _⟩

/-- The adder and the request after the load, while the request's old last node is
still locked. -/
structure Loaded (cache : PrefillCache τ R Λ ρ) (a b : PrefillAdder τ R) (p q : PoolAllocator)
    (locks : List (Nat × R)) (req : WaitingReq R) : Prop where
  canRunList : b.canRunList = a.canRunList
  pageSize : b.pageSize = a.pageSize
  total : b.remTotalTokenOffset = a.remTotalTokenOffset
  cur : b.curRemTokenOffset = a.curRemTokenOffset
  allocator : b.allocator = .pool q
  samePages : q.pageSize = p.pageSize
  sound : cache.Sound b.tree q locks
  hasNode : cache.HasNode b.tree req.lastNode req.dpRank
  fits : ∀ r, a.tokensNeeded r ≤ cache.admission.budget b.tree q r
  room : RoomFor cache a (cache.admission.incLockRef b.tree req.lastNode).1 q req.dpRank
    req.extendInputLen
  measured : Measured req

theorem Reserved.loadBack (h : Reserved cache a p held) (hfits : req.Fits)
    (hnode : cache.HasNode a.tree req.lastNode req.dpRank)
    (hhost : cache.HasNode a.tree req.lastHostNode req.dpRank)
    (htest : noToken cache.admission (locked cache.admission a req) req = false) :
    let out := PrefillAdder.loadBack cache.admission (locked cache.admission a req) req
    out.2.dpRank = req.dpRank ∧ ∃ q, Loaded cache a out.1 p q
      ((req.lastNode, (cache.admission.incLockRef a.tree req.lastNode).2) :: held) out.2 := by
  obtain ⟨hsound, hnodes, helse⟩ := cache.lock_sound h.sound hnode
  have hextend := hfits.extend
  have hhit := hfits.host
  have hmeasured : Measured req := ⟨hextend, by omega⟩
  have hroom : RoomFor cache a (cache.admission.incLockRef a.tree req.lastNode).1 p req.dpRank
      req.extendInputLen := h.roomFor htest helse
  have hlocked := hroom.fits hmeasured.nonneg
  have hstay : Loaded cache a (locked cache.admission a req) p p
      ((req.lastNode, (cache.admission.incLockRef a.tree req.lastNode).2) :: held) req := by
    refine ⟨rfl, rfl, rfl, rfl, h.allocator, rfl, hsound, hnodes _ hnode, hlocked, ?_, hmeasured⟩
    apply hroom.mono le_rfl
    intro r
    exact (congrArg _ (cache.lock_again hsound List.mem_cons_self r)).ge
  unfold PrefillAdder.loadBack
  split
  · rename_i hwants
    have hon : cache.admission.hicacheEnabled = true := by
      unfold wantsLoadBack at hwants
      exact (Bool.and_eq_true_iff.mp hwants).1
    obtain ⟨q, hload⟩ := cache.load_sound hon hsound (hnodes _ hnode) (hnodes _ hhost)
      req.hostHitLength (memQuota (locked cache.admission a req) req.dpRank)
    have hcall : load cache.admission (locked cache.admission a req) req =
        cache.admission.initLoadBack (cache.admission.incLockRef a.tree req.lastNode).1 (.pool p)
          req.lastHostNode req.hostHitLength
          (memQuota (locked cache.admission a req) req.dpRank) := by
      rw [← h.allocator]
      rfl
    rw [← hcall] at hload
    generalize load cache.admission (locked cache.admission a req) req = out at hload ⊢
    have hkept (r : Nat) : a.tokensNeeded r ≤ cache.admission.budget out.tree q r :=
      (hlocked r).trans (hload.budget r)
    dsimp only
    split
    · refine ⟨rfl, q, rfl, rfl, rfl, rfl, hload.allocator, hload.pageSize, hload.sound,
        hload.hasNode, hkept, ?_, hmeasured⟩
      apply hroom.mono le_rfl
      intro r
      refine (hload.budget r).trans ?_
      exact (congrArg _ (cache.lock_again hload.sound List.mem_cons_self r)).ge
    · rename_i hsome
      obtain ⟨hlen, hlast, hmore⟩ := hload.found hsome
      refine ⟨rfl, q, rfl, rfl, rfl, rfl, hload.allocator, hload.pageSize, hload.sound, hlast,
        hkept, ?_, ⟨rfl, ?_⟩⟩
      · intro r
        have hfree := hroom r
        have hbudget := hload.budget r
        have hshare := hmore r
        dsimp only
        rw [List.length_append]
        split at hfree
        · rename_i hrank
          rw [if_pos hrank] at hshare ⊢
          omega
        · rename_i hrank
          rw [if_neg hrank] at hshare ⊢
          omega
      · dsimp only
        rw [List.length_append]
        omega
  · exact ⟨rfl, p, hstay⟩

/-- The tests after the load, and the release of the lock. -/
theorem Reserved.admitLoaded {node : Nat} {receipt : R} (h : Reserved cache a p held)
    (hloaded : Loaded cache a b p q ((node, receipt) :: held) req) :
    let out := (PrefillAdder.admitLoaded cache.admission b req).1
    ∃ held', Reserved cache
      { out with tree := cache.admission.decLockRef out.tree node receipt } q held' := by
  have hpos : 0 < b.pageSize := by
    rw [hloaded.pageSize, h.pageSize, ← hloaded.samePages]
    exact cache.page_pos hloaded.sound
  dsimp only
  rcases admitLoaded_admits cache.admission hpos hloaded.measured with
    hsame | ⟨htree, hallocator, req', hruns, hless, hadmitted⟩
  · rw [hsame]
    obtain ⟨hsound, hmore⟩ := cache.release_sound hloaded.sound
    refine ⟨held, h.move hloaded.canRunList hloaded.pageSize hloaded.total hloaded.cur
      hloaded.allocator hloaded.samePages hsound ?_⟩
    intro r
    exact (hloaded.fits r).trans (Int.add_le_add_left (hmore r) _)
  · obtain ⟨hlocked, -, -⟩ := cache.lock_sound hloaded.sound hloaded.hasNode
    have hpages := (hloaded.room.mono hless fun r => le_rfl).pages
      (h.pageSize.trans hloaded.samePages.symm) hlocked
    obtain ⟨hsound, hmore⟩ := cache.release_sound (cache.sound_perm hlocked (.swap _ _ _))
    have hmoved := hadmitted.congr hloaded.canRunList.symm hloaded.pageSize.symm
      hloaded.total.symm hloaded.cur.symm
    have hfinal : Admitted a { (PrefillAdder.admitLoaded cache.admission b req).1 with
        tree := cache.admission.decLockRef (PrefillAdder.admitLoaded cache.admission b req).1.tree
          node receipt } req.dpRank req' :=
      ⟨hmoved.canRunList, hmoved.pageSize, hmoved.total, hmoved.cur⟩
    refine ⟨(req.lastNode, (cache.admission.incLockRef b.tree req.lastNode).2) :: held,
      h.admitted hfinal hruns (hallocator.trans hloaded.allocator) hloaded.samePages ?_ ?_⟩
    · dsimp only
      rw [htree]
      exact hsound
    · dsimp only
      rw [htree]
      apply hpages.mono le_rfl
      intro r
      exact Int.add_le_add_left (hmore r) _

theorem Reserved.cached (h : Reserved cache a p held) (hfits : req.Fits)
    (hnode : cache.HasNode a.tree req.lastNode req.dpRank)
    (hhost : cache.HasNode a.tree req.lastHostNode req.dpRank) :
    let out := (addLocked cache.admission (locked cache.admission a req) req).1
    ∃ q held', Reserved cache { out with
      tree := cache.admission.decLockRef out.tree req.lastNode
        (cache.admission.incLockRef a.tree req.lastNode).2 } q held' := by
  obtain ⟨hsound, -, -⟩ := cache.lock_sound h.sound hnode
  have hreleased := (cache.release_sound hsound).1
  -- A lock and its release change no budget.
  have hback : Reserved cache { locked cache.admission a req with
      tree := cache.admission.decLockRef (locked cache.admission a req).tree req.lastNode
        (cache.admission.incLockRef a.tree req.lastNode).2 } p held := by
    refine h.move rfl rfl rfl rfl h.allocator rfl hreleased ?_
    intro r
    refine (h.fits r).trans_eq ?_
    exact congrArg _ (cache.release_lock h.sound hnode r).symm
  dsimp only
  unfold addLocked
  split
  · exact ⟨p, held, hback⟩
  · rename_i htest
    rw [Bool.not_eq_true] at htest
    split
    · exact ⟨p, held, hback⟩
    · obtain ⟨hrank, q, hloaded⟩ := h.loadBack hfits hnode hhost htest
      obtain ⟨held', hreserved⟩ := h.admitLoaded hloaded
      exact ⟨q, held', hreserved⟩

/-- One call of `add_one_req` keeps what is reserved within reach. -/
theorem Reserved.addOneReq (h : Reserved cache a p held) (hfits : req.Fits)
    (hnode : cache.HasNode a.tree req.lastNode req.dpRank)
    (hhost : cache.HasNode a.tree req.lastHostNode req.dpRank) :
    ∃ q held', Reserved cache (PrefillAdder.addOneReq cache.admission a req).1 q held' := by
  have hextend := hfits.extend
  have hhit := hfits.host
  cases hbudget : chunkExhausted a req.dpRank with
  | true =>
    unfold PrefillAdder.addOneReq
    rw [if_pos hbudget]
    exact ⟨p, held, h⟩
  | false =>
    cases hpath : (req.ignoreEos && cache.admission.disable a.tree) with
    | true =>
      unfold PrefillAdder.addOneReq
      rw [if_neg (by simp [hbudget]), if_pos hpath]
      exact h.ignoreEos ⟨by omega, by omega⟩
    | false =>
      cases hearly : rejectsEarly cache.admission a req with
      | some result =>
        unfold PrefillAdder.addOneReq
        rw [if_neg (by simp [hbudget]), if_neg (by simp [hpath]), hearly]
        exact ⟨p, held, h⟩
      | none =>
        rw [(addOneReq_cached hbudget hpath hearly).1]
        exact h.cached hfits hnode hhost

end Reserved
end PrefillAdder

/-- What the loop over the waiting queue keeps. -/
theorem AdmissionRun.reserved {τ R Λ ρ : Type} {cache : PrefillCache τ R Λ ρ}
    {a : PrefillAdder τ R} (run : AdmissionRun cache a) :
    ∃ p held, PrefillAdder.Reserved cache a p held := by
  induction run with
  | @start a p held hallocator hpage hsound hnone htotal hcur =>
    have hzero (r : Nat) : a.tokensNeeded r = 0 := by
      simp [PrefillAdder.tokensNeeded, hnone]
    refine ⟨p, held, hallocator, hpage, hsound, ?_, ?_, ?_, ?_⟩
    · intro r
      have hevictable := (cache.whole_pages hsound r).1
      rw [hzero, AdmissionCache.budget]
      omega
    · intro r
      simpa [hzero] using htotal r
    · intro r
      simpa [hzero] using hcur r
    · simp [hnone]
  | @lookup a key tree result run hids heq ih =>
    obtain ⟨p, held, h⟩ := ih
    obtain ⟨hsound, -, hsame⟩ := cache.match_sound h.sound hids heq
    refine ⟨p, held, h.move rfl rfl rfl rfl h.allocator rfl hsound ?_⟩
    intro r
    refine (h.fits r).trans_eq ?_
    exact congrArg _ (hsame r).symm
  | addOneReq run hfits hnode hhost ih =>
    obtain ⟨p, held, h⟩ := ih
    exact h.addOneReq hfits hnode hhost

end SglJax.Managers
