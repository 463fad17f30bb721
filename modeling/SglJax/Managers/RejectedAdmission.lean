import SglJax.Managers.PrefillAdder
import SglJax.MemCache.RadixUpkeep

/-! What a rejected admission leaves behind. Most rejections undo what they did;
two do not, and they are told apart here. -/
namespace SglJax.Managers

open Foundation MemCache

namespace PrefillAdder

variable {τ R Λ : Type} (cache : AdmissionCache τ R Λ) (a : PrefillAdder τ R)
  (req : WaitingReq R)

/-- The adder but for its tree, the locks of the tree, and what the next lookup
reads of the request are as before. -/
structure Untouched (b : PrefillAdder τ R) (req' : WaitingReq R) : Prop where
  adder : ∃ tree, b = { a with tree := tree } ∧ cache.locks tree = cache.locks a.tree
  fillIds : req'.fillIds = req.fillIds
  extendInputLen : req'.extendInputLen = req.extendInputLen
  prefixIndices : req'.prefixIndices = req.prefixIndices

/-- A call that appends no request changes nothing. -/
def LeavesNoTrace : Prop :=
  (addOneReq cache a req).1.canRunList = a.canRunList →
    Untouched cache a req (addOneReq cache a req).1 (addOneReq cache a req).2.1

/-- The ignore-eos path puts the candidate into `req_states`, and then finds too few
free tokens. -/
structure EosTrace : Prop where
  budget : chunkExhausted a req.dpRank = false
  path : (req.ignoreEos && cache.disable a.tree) = true
  reached : ignoreEosNoToken cache a req = false
  fails : ignoreEosFits cache a req = false
  changed : a.reqStates req.dpRank ≠ some (reqStatesWith a req)

/-- The adder while the request's last node is locked. -/
def locked : PrefillAdder τ R := { a with tree := (cache.incLockRef a.tree req.lastNode).1 }

/-- The tests after the load turn the request away. -/
def rejectsLate : Bool :=
  let inputTokens := ceilPagedTokens a.pageSize (capAtBoundary cache req).extendInputLen
  inputBudgetSpent a inputTokens ||
    a.remChunkTokensList.any fun rem =>
      let left : Int := rem req.dpRank
      decide (inputTokens > left) && decide (left / a.pageSize * a.pageSize ≤ 0)

/-- The cached path turns the request away after host pages were loaded for it or
after it was cut at a boundary. -/
structure LateTrace : Prop where
  budget : chunkExhausted a req.dpRank = false
  path : (req.ignoreEos && cache.disable a.tree) = false
  early : rejectsEarly cache a req = none
  fits : noToken cache (locked cache a req) req = false
  chunk : chunkTooShort (locked cache a req) req = false
  late : rejectsLate cache (loadBack cache (locked cache a req) req).1
    (loadBack cache (locked cache a req) req).2 = true
  changed : (wantsLoadBack cache req = true ∧
      (load cache (locked cache a req) req).newIndices ≠ []) ∨
    boundaryTruncated cache (loadBack cache (locked cache a req) req).2 = true

variable {cache a req}

theorem Untouched.refl : Untouched cache a req a req :=
  ⟨⟨a.tree, rfl, rfl⟩, rfl, rfl, rfl⟩

/-! ### Appending shows -/

theorem append_ne {α : Type} (lists : Nat → List α) (dpRank : Nat) (x : α) :
    Function.update lists dpRank (lists dpRank ++ [x]) ≠ lists := by
  intro h
  have hrank := congrArg List.length (congrFun h dpRank)
  simp at hrank

theorem ignoreEosAdmit_ne (hbudget : chunkExhausted a req.dpRank = false) :
    (ignoreEosAdmit cache a req).1.canRunList ≠ a.canRunList := by
  unfold ignoreEosAdmit
  dsimp only
  split
  · rename_i rem hrem
    split
    · exact append_ne _ _ _
    · split
      · rename_i hspent
        rw [chunkExhausted, hrem] at hbudget
        simp [hspent] at hbudget
      · exact append_ne _ _ _
  · exact append_ne _ _ _

theorem appendLocked_ne (chunked : Bool) (extendInputLen : Int) (maxNewTokens : Nat) :
    (appendLocked cache a req chunked extendInputLen maxNewTokens).1.canRunList ≠ a.canRunList :=
  append_ne _ _ _

/-- The tests after the load either reject and change the request alone, or append it. -/
theorem admitLoaded_cases (cache : AdmissionCache τ R Λ) (a : PrefillAdder τ R)
    (req : WaitingReq R) :
    (rejectsLate cache a req = true ∧ (admitLoaded cache a req).1 = a ∧
      (admitLoaded cache a req).2.1 =
        capAtBoundary cache { req with lastMatchedPrefixLen := req.prefixIndices.length }) ∨
    (rejectsLate cache a req = false ∧ (admitLoaded cache a req).1.canRunList ≠ a.canRunList) := by
  have hcap : (capAtBoundary cache
      { req with lastMatchedPrefixLen := req.prefixIndices.length }).extendInputLen =
      (capAtBoundary cache req).extendInputLen := by
    unfold capAtBoundary
    dsimp only
    split
    · split <;> rfl
    · rfl
  have hrank : (capAtBoundary cache
      { req with lastMatchedPrefixLen := req.prefixIndices.length }).dpRank = req.dpRank := by
    unfold capAtBoundary
    dsimp only
    split
    · split <;> rfl
    · rfl
  unfold admitLoaded rejectsLate
  dsimp only
  rw [hcap, hrank]
  by_cases hspent : inputBudgetSpent a
      (ceilPagedTokens a.pageSize (capAtBoundary cache req).extendInputLen) = true
  · left
    rw [if_pos hspent, hspent]
    exact ⟨rfl, rfl, rfl⟩
  · rw [if_neg hspent]
    rw [Bool.not_eq_true] at hspent
    rw [hspent, Bool.false_or]
    cases hrem : a.remChunkTokensList with
    | none =>
      right
      exact ⟨rfl, appendLocked_ne _ _ _⟩
    | some rem =>
      dsimp only [Option.any_some]
      by_cases hfits : ceilPagedTokens a.pageSize (capAtBoundary cache req).extendInputLen ≤
          rem req.dpRank
      · right
        rw [if_pos hfits]
        exact ⟨by simp [hfits], appendLocked_ne _ _ _⟩
      · rw [if_neg hfits]
        by_cases hshort : rem req.dpRank / (a.pageSize : Int) * a.pageSize ≤ 0
        · left
          rw [if_pos hshort]
          exact ⟨by simp [hshort, not_le.mp hfits], rfl, rfl⟩
        · right
          rw [if_neg hshort]
          exact ⟨by simp [hshort], appendLocked_ne _ _ _⟩

/-! ### The load and the cut -/

theorem loadBack_canRunList (cache : AdmissionCache τ R Λ) (a : PrefillAdder τ R)
    (req : WaitingReq R) :
    (loadBack cache a req).1.canRunList = a.canRunList := by
  unfold loadBack
  split
  · dsimp only
    split <;> rfl
  · rfl

/-- Slots came back from the host. -/
def loads (cache : AdmissionCache τ R Λ) (a : PrefillAdder τ R) (req : WaitingReq R) : Prop :=
  wantsLoadBack cache req = true ∧ (load cache (locked cache a req) req).newIndices ≠ []

theorem loadBack_loads (h : loads cache a req) :
    (loadBack cache (locked cache a req) req).2.prefixIndices ≠ req.prefixIndices := by
  unfold loadBack
  rw [if_pos h.1]
  dsimp only
  rw [if_neg h.2]
  intro heq
  have hlen := congrArg List.length heq
  rw [List.length_append] at hlen
  exact h.2 (List.length_eq_zero_iff.mp (by omega))

/-- Without a load only the tree may differ, and a release gives its locks back. -/
theorem loadBack_nothing (h : ¬ loads cache a req) :
    (loadBack cache (locked cache a req) req).2 = req ∧
      ∃ tree, (loadBack cache (locked cache a req) req).1 = { a with tree := tree } ∧
        cache.locks (cache.decLockRef tree req.lastNode (cache.incLockRef a.tree req.lastNode).2) =
          cache.locks a.tree := by
  unfold loadBack
  by_cases hwants : wantsLoadBack cache req = true
  · rw [if_pos hwants]
    have hnothing : (load cache (locked cache a req) req).newIndices = [] := by
      by_contra hne
      exact h ⟨hwants, hne⟩
    have hlaw := cache.nothing_loaded a.tree a.allocator req.lastNode req.lastHostNode
      req.hostHitLength (memQuota (locked cache a req) req.dpRank) hnothing
    dsimp only
    rw [if_pos hnothing]
    refine ⟨rfl, (load cache (locked cache a req) req).tree, ?_, hlaw.2⟩
    have hsame : (load cache (locked cache a req) req).allocator = a.allocator := hlaw.1
    rw [hsame]
    rfl
  · rw [if_neg hwants]
    exact ⟨rfl, _, rfl, cache.locks_release a.tree req.lastNode⟩

theorem capAtBoundary_prefixIndices :
    (capAtBoundary cache req).prefixIndices = req.prefixIndices := by
  unfold capAtBoundary
  split
  · split <;> rfl
  · rfl

theorem capAtBoundary_truncated (h : boundaryTruncated cache req = true) :
    (capAtBoundary cache req).extendInputLen ≠ req.extendInputLen := by
  unfold boundaryTruncated at h
  unfold capAtBoundary
  split
  · rename_i cap hcap
    rw [hcap] at h
    have hlong : req.extendInputLen > cap := by simpa using h
    rw [if_pos hlong]
    dsimp only
    omega
  · rename_i hnone
    rw [hnone] at h
    cases h

theorem capAtBoundary_eq (h : boundaryTruncated cache req = false) :
    capAtBoundary cache req = req := by
  unfold boundaryTruncated at h
  unfold capAtBoundary
  split
  · rename_i cap hcap
    rw [hcap] at h
    have hshort : ¬ req.extendInputLen > cap := by simpa using h
    rw [if_neg hshort]
  · rfl

/-- The lock is released and the request is as the tests left it. -/
theorem untouched_late_iff {d : PrefillAdder τ R} {r : WaitingReq R}
    (hload : loadBack cache (locked cache a req) req = (d, r)) :
    Untouched cache a req
        { d with
          tree := cache.decLockRef d.tree req.lastNode (cache.incLockRef a.tree req.lastNode).2 }
        (capAtBoundary cache { r with lastMatchedPrefixLen := r.prefixIndices.length }) ↔
      ¬ (loads cache a req ∨ boundaryTruncated cache r = true) := by
  by_cases hloads : loads cache a req
  · have hprefix := loadBack_loads hloads
    rw [hload] at hprefix
    refine iff_of_false (fun h => hprefix ?_) (fun h => h (.inl hloads))
    have hreq := h.prefixIndices
    rwa [capAtBoundary_prefixIndices] at hreq
  · obtain ⟨hreq, tree, hadder, hlocks⟩ := loadBack_nothing hloads
    rw [hload] at hreq hadder
    dsimp only at hreq hadder
    subst hreq hadder
    have hsame : boundaryTruncated cache
        { r with lastMatchedPrefixLen := r.prefixIndices.length } = boundaryTruncated cache r := rfl
    by_cases hcut : boundaryTruncated cache r = true
    · refine iff_of_false (fun h => ?_) (fun h => h (.inr hcut))
      exact capAtBoundary_truncated (hsame.trans hcut) h.extendInputLen
    · rw [Bool.not_eq_true] at hcut
      refine iff_of_true ?_ (by simp [hloads, hcut])
      rw [capAtBoundary_eq (hsame.trans hcut)]
      exact ⟨⟨_, rfl, hlocks⟩, rfl, rfl, rfl⟩

/-! ### The two paths -/

theorem addOneReqIgnoreEos_leavesNoTrace (hbudget : chunkExhausted a req.dpRank = false) :
    ((addOneReqIgnoreEos cache a req).1.canRunList = a.canRunList →
      Untouched cache a req (addOneReqIgnoreEos cache a req).1
        (addOneReqIgnoreEos cache a req).2.1) ↔
    ¬ (ignoreEosNoToken cache a req = false ∧ ignoreEosFits cache a req = false ∧
      a.reqStates req.dpRank ≠ some (reqStatesWith a req)) := by
  unfold addOneReqIgnoreEos
  dsimp only
  by_cases hnone : ignoreEosNoToken cache a req = true
  · rw [if_pos hnone]
    exact iff_of_true (fun _ => Untouched.refl) (by simp [hnone])
  · rw [if_neg hnone]
    by_cases hfits : ignoreEosFits cache a req = true
    · rw [if_pos hfits]
      refine iff_of_true (fun h => ?_) (by simp [hfits])
      exact absurd h (ignoreEosAdmit_ne hbudget)
    · rw [if_neg hfits]
      rw [Bool.not_eq_true] at hnone hfits
      constructor
      · rintro h ⟨-, -, hchanged⟩
        obtain ⟨tree, heq, -⟩ := (h rfl).adder
        have hstates := congrArg (fun b => b.reqStates req.dpRank) heq
        simp only [Function.update_self] at hstates
        exact hchanged hstates.symm
      · intro h _
        have hstates : a.reqStates req.dpRank = some (reqStatesWith a req) := by
          by_contra hne
          exact h ⟨hnone, hfits, hne⟩
        refine ⟨⟨a.tree, ?_, rfl⟩, rfl, rfl, rfl⟩
        rw [← hstates, Function.update_eq_self]

/-- What the cached path returns, with the lock released. -/
theorem addOneReq_cached (hbudget : chunkExhausted a req.dpRank = false)
    (hpath : (req.ignoreEos && cache.disable a.tree) = false)
    (hearly : rejectsEarly cache a req = none) :
    let out := addLocked cache (locked cache a req) req
    (addOneReq cache a req).1 = { out.1 with
      tree := cache.decLockRef out.1.tree req.lastNode
        (cache.incLockRef a.tree req.lastNode).2 } ∧
      (addOneReq cache a req).2.1 = out.2.1 := by
  unfold addOneReq
  rw [if_neg (by simp [hbudget]), if_neg (by simp [hpath])]
  rw [hearly]
  exact ⟨rfl, rfl⟩

theorem cached_leavesNoTrace (hbudget : chunkExhausted a req.dpRank = false)
    (hpath : (req.ignoreEos && cache.disable a.tree) = false)
    (hearly : rejectsEarly cache a req = none) :
    LeavesNoTrace cache a req ↔ ¬ LateTrace cache a req := by
  obtain ⟨hadder, hreq⟩ := addOneReq_cached hbudget hpath hearly
  unfold LeavesNoTrace
  rw [hadder, hreq]
  have hreleased : Untouched cache a req
      { locked cache a req with
        tree := cache.decLockRef (locked cache a req).tree req.lastNode
          (cache.incLockRef a.tree req.lastNode).2 } req :=
    ⟨⟨_, rfl, cache.locks_release a.tree req.lastNode⟩, rfl, rfl, rfl⟩
  unfold addLocked
  by_cases hfits : noToken cache (locked cache a req) req = true
  · rw [if_pos hfits]
    refine iff_of_true (fun _ => hreleased) fun h => ?_
    simp [h.fits] at hfits
  · rw [if_neg hfits]
    by_cases hchunk : chunkTooShort (locked cache a req) req = true
    · rw [if_pos hchunk]
      refine iff_of_true (fun _ => hreleased) fun h => ?_
      simp [h.chunk] at hchunk
    · rw [if_neg hchunk]
      rw [Bool.not_eq_true] at hfits hchunk
      cases hload : loadBack cache (locked cache a req) req with
      | mk d r =>
        have hsame : d.canRunList = a.canRunList := by
          have hlist := loadBack_canRunList cache (locked cache a req) req
          rwa [hload] at hlist
        dsimp only
        rcases admitLoaded_cases cache d r with
          ⟨hlate, hd, hr⟩ | ⟨hlate, hne⟩
        · rw [hd, hr, untouched_late_iff hload]
          constructor
          · intro h late
            have hchanged := late.changed
            rw [hload] at hchanged
            exact h hsame hchanged
          · intro h _ hchanged
            refine h ⟨hbudget, hpath, hearly, hfits, hchunk, ?_, ?_⟩
            · rw [hload]
              exact hlate
            · rw [hload]
              exact hchanged
        · refine iff_of_true (fun h => absurd (h.trans hsame.symm) hne) fun late => ?_
          have hlate' := late.late
          rw [hload] at hlate'
          simp [hlate] at hlate'

/-- A rejection leaves a trace in two cases and in no others. -/
theorem leavesNoTrace_iff (cache : AdmissionCache τ R Λ) (a : PrefillAdder τ R)
    (req : WaitingReq R) :
    LeavesNoTrace cache a req ↔ ¬ EosTrace cache a req ∧ ¬ LateTrace cache a req := by
  cases hbudget : chunkExhausted a req.dpRank with
  | true =>
    have hrefused : addOneReq cache a req = (a, req, .dpBudgetExhausted) := by
      unfold addOneReq
      rw [if_pos hbudget]
    unfold LeavesNoTrace
    rw [hrefused]
    refine iff_of_true (fun _ => .refl) ⟨fun h => ?_, fun h => ?_⟩
    · simp [h.budget] at hbudget
    · simp [h.budget] at hbudget
  | false =>
    cases hpath : (req.ignoreEos && cache.disable a.tree) with
    | true =>
      have heos : addOneReq cache a req = addOneReqIgnoreEos cache a req := by
        unfold addOneReq
        rw [if_neg (by simp [hbudget]), if_pos hpath]
      have hlate : ¬ LateTrace cache a req := fun h => by simp [h.path] at hpath
      unfold LeavesNoTrace
      rw [heos, addOneReqIgnoreEos_leavesNoTrace hbudget]
      constructor
      · intro h
        exact ⟨fun e => h ⟨e.reached, e.fails, e.changed⟩, hlate⟩
      · intro h e
        exact h.1 ⟨hbudget, hpath, e.1, e.2.1, e.2.2⟩
    | false =>
      have heos : ¬ EosTrace cache a req := fun h => by simp [h.path] at hpath
      cases hearly : rejectsEarly cache a req with
      | some result =>
        have hrefused : addOneReq cache a req = (a, req, result) := by
          unfold addOneReq
          rw [if_neg (by simp [hbudget]), if_neg (by simp [hpath]), hearly]
        unfold LeavesNoTrace
        rw [hrefused]
        refine iff_of_true (fun _ => .refl) ⟨heos, fun h => ?_⟩
        simp [h.early] at hearly
      | none =>
        rw [cached_leavesNoTrace hbudget hpath hearly]
        exact (and_iff_right heos).symm

end PrefillAdder

/-- `RadixCache` for a plain or paged allocator: nothing is kept on the host, and
there are no recurrent states. -/
def radixAdmission : AdmissionCache RadixCache Unit (MemCache.Tree RadixNode) where
  disable := RadixCache.disable
  hicacheEnabled := false
  recurrentTrackInterval := none
  slidingWindowSize := 0
  evictionIntervalMultiplier := 1
  evictableSize := RadixCache.evictableSize
  fullEvictableSize _ _ := 0
  swaEvictableSize _ _ := 0
  incLockRef tree node := ((tree.incLockRef node).1, ())
  decLockRef tree node _ := (tree.decLockRef node).1
  initLoadBack tree allocator lastHostNode _ _ := ⟨tree, allocator, [], lastHostNode, []⟩
  locks := RadixCache.tree
  locks_release := RadixCache.decLockRef_incLockRef_tree
  nothing_loaded tree _ node _ _ _ _ :=
    ⟨rfl, RadixCache.decLockRef_incLockRef_tree tree node⟩

/-! A candidate that may decode twice as many tokens as are free. -/

def tightAdder : PrefillAdder RadixCache Unit where
  pageSize := 1
  dpSize := 1
  tree := .reset 1 true false
  allocator := .pool (.init 64 1 1)
  runningReqs _ := []
  newTokenRatio := 1
  remInputTokens := 1000
  remChunkTokens := none
  remChunkTokensList := none
  remTotalTokenOffset _ := 0
  curRemTokenOffset _ := 0
  remSwaTokenOffset _ := 0
  reqStates _ := none
  canRunList _ := []
  newChunkedReqs _ := none
  pendingH2d := []
  logHitTokens := 0
  logInputTokens := 0

def longReq : WaitingReq Unit where
  uid := 0
  dpRank := 0
  originInputLen := 1
  outputLen := 0
  maxNewTokens := 128
  ignoreEos := true
  fillIds := [7]
  prefixIndices := []
  extendInputLen := 1
  hostHitLength := 0
  lastNode := 0
  lastHostNode := 0
  lastMatchedPrefixLen := 0
  lockParams := none

theorem tightAdder_free : PrefillAdder.availableAndEvictable radixAdmission tightAdder 0 = 64 := rfl

theorem longReq_states : PrefillAdder.reqStatesWith tightAdder longReq = [(128, 1)] := by
  have hleft : PrefillAdder.tokensLeft tightAdder longReq = 128 := by
    simp [PrefillAdder.tokensLeft, alignPageSize, tightAdder, longReq]
  have hone : PrefillAdder.addReqState tightAdder [] longReq = [(128, 1)] := by
    unfold PrefillAdder.addReqState
    rw [hleft]
    norm_num [PrefillAdder.tokensOccupied, longReq]
  change (PrefillAdder.addReqState tightAdder [] longReq).mergeSort _ = _
  rw [hone, List.mergeSort_singleton]

theorem longReq_reached :
    PrefillAdder.ignoreEosNoToken radixAdmission tightAdder longReq = false := by
  unfold PrefillAdder.ignoreEosNoToken PrefillAdder.curRemTokensForDp
    PrefillAdder.remTotalTokensForDp
  change (decide _ || _) = false
  rw [show longReq.dpRank = 0 from rfl, tightAdder_free]
  norm_num [tightAdder, longReq, ceilPagedTokens, PrefillAdder.isHybrid]

theorem longReq_fails : PrefillAdder.ignoreEosFits radixAdmission tightAdder longReq = false := by
  unfold PrefillAdder.ignoreEosFits PrefillAdder.curRemTokensForDp
  rw [longReq_states, show longReq.dpRank = 0 from rfl, tightAdder_free]
  norm_num [tightAdder, longReq, ceilPagedTokens, PrefillAdder.tokensSuffice, ignoreEosReserveTokens]

/-- The rejected candidate stays in `req_states`. -/
theorem tightAdder_leaves_trace :
    (PrefillAdder.addOneReq radixAdmission tightAdder longReq).2.2 = .noToken ∧
      (PrefillAdder.addOneReq radixAdmission tightAdder longReq).1.reqStates 0 = some [(128, 1)] ∧
      ¬ PrefillAdder.LeavesNoTrace radixAdmission tightAdder longReq := by
  have hpath : PrefillAdder.addOneReq radixAdmission tightAdder longReq =
      PrefillAdder.addOneReqIgnoreEos radixAdmission tightAdder longReq := rfl
  have hout : PrefillAdder.addOneReqIgnoreEos radixAdmission tightAdder longReq =
      ({ tightAdder with reqStates := Function.update tightAdder.reqStates 0 (some [(128, 1)]) },
        longReq, .noToken) := by
    unfold PrefillAdder.addOneReqIgnoreEos
    rw [if_neg (by simp [longReq_reached]), longReq_fails, longReq_states]
    rfl
  rw [hpath, hout]
  refine ⟨rfl, by simp, ?_⟩
  unfold PrefillAdder.LeavesNoTrace
  rw [hpath, hout]
  intro h
  obtain ⟨tree, heq, -⟩ := (h rfl).adder
  have hstates := congrArg (fun b => b.reqStates 0) heq
  simp [tightAdder] at hstates

end SglJax.Managers
