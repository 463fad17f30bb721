import SglJax.Foundation.SharedBudget
import SglJax.Managers.RejectedAdmission

/-! Ignore-eos admission: `req_states` as a simulation of the requests that run
forward until their tokens end. -/
namespace SglJax.Managers

open Foundation MemCache SharedBudget

namespace PrefillAdder

variable {τ R Λ : Type} (cache : AdmissionCache τ R Λ) (a : PrefillAdder τ R)

/-- The entries that requests with tokens left have. -/
def entries (reqs : List (WaitingReq R)) : List (ℚ × Nat) :=
  (reqs.filter fun r => decide (0 < tokensLeft a r)).map fun r =>
    (tokensLeft a r, tokensOccupied r)

/-- The requests of a rank that run or were admitted. -/
def liveReqs (dpRank : Nat) : List (WaitingReq R) := a.runningReqs dpRank ++ a.canRunList dpRank

/-- The list of a rank is sorted and has one entry for each live request with tokens
left. -/
structure Tracks (dpRank : Nat) (states : List (ℚ × Nat)) : Prop where
  sorted : states.Pairwise (·.1 ≤ ·.1)
  exact : states.Perm (entries a (liveReqs a dpRank))

/-- Every list that was built tracks its rank. -/
def ReqStatesTrack : Prop :=
  ∀ dpRank states, a.reqStates dpRank = some states → Tracks a dpRank states

/-- With an admission the live requests of the rank can run forward: while one of
them runs, more than the reserve is free. -/
def AdmitsSafely (req : WaitingReq R) : Prop :=
  let b := (addOneReqIgnoreEos cache a req).1
  b.canRunList ≠ a.canRunList →
    StaysAbove ignoreEosReserveTokens (curRemTokensForDp cache b req.dpRank)
      (entries b (liveReqs b req.dpRank))

/-- The adder after a sequence of calls. -/
def runIgnoreEos (reqs : List (WaitingReq R)) : PrefillAdder τ R :=
  reqs.foldl (fun a req => (addOneReqIgnoreEos cache a req).1) a

/-- Over a sequence of calls, `req_states` tracks and each admission is safe. -/
structure Simulates (reqs : List (WaitingReq R)) : Prop where
  tracks : ∀ before, before <+: reqs → ReqStatesTrack (runIgnoreEos cache a before)
  safe : ∀ before req, before ++ [req] <+: reqs →
    AdmitsSafely cache (runIgnoreEos cache a before) req

/-- The chunk budget takes the request or a part of it. -/
def chunkTakes (req : WaitingReq R) : Bool :=
  a.remChunkTokensList.all fun rem =>
    decide (req.extendInputLen ≤ rem req.dpRank) || decide (0 < rem req.dpRank)

/-- The list of the rank is not built yet, or is empty, or has an entry with as many
tokens left. -/
def HasPlace (req : WaitingReq R) : Prop :=
  ∀ states, a.reqStates req.dpRank = some states →
    states = [] ∨ ∃ s ∈ states, tokensLeft a req ≤ s.1

/-- A candidate with tokens left that is put into `req_states` has its place there
and is admitted. -/
def CandidateStays (req : WaitingReq R) : Prop :=
  ignoreEosNoToken cache a req = false → 0 < tokensLeft a req →
    HasPlace a req ∧ ignoreEosFits cache a req = true ∧ chunkTakes a req = true

/-! ### The list with the candidate -/

variable {cache a} {req : WaitingReq R}

theorem addReqState_entries (states : List (ℚ × Nat)) (reqs : List (WaitingReq R)) :
    reqs.foldl (addReqState a) states = states ++ entries a reqs := by
  induction reqs generalizing states with
  | nil => exact (List.append_nil states).symm
  | cons r rest ih =>
    rw [List.foldl_cons, ih, addReqState, entries, entries]
    split
    · rename_i hnone
      rw [List.filter_cons_of_neg (by simpa using hnone)]
    · rename_i hleft
      rw [List.filter_cons_of_pos (by simpa using hleft), List.map_cons, List.append_assoc]
      rfl

theorem entries_append (reqs others : List (WaitingReq R)) :
    entries a (reqs ++ others) = entries a reqs ++ entries a others := by
  rw [entries, List.filter_append, List.map_append]
  rfl

theorem entries_single_of_pos (h : 0 < tokensLeft a req) :
    entries a [req] = [(tokensLeft a req, tokensOccupied req)] := by
  rw [entries, List.filter_cons_of_pos (by simpa using h)]
  rfl

theorem entries_single_of_not_pos (h : ¬ 0 < tokensLeft a req) : entries a [req] = [] := by
  rw [entries, List.filter_cons_of_neg (by simpa using h)]
  rfl

theorem insertPos_le (states : List (ℚ × Nat)) (left : ℚ) :
    insertPos states left ≤ states.length := by
  unfold insertPos
  cases hfind : states.findIdx? fun s => decide (left ≤ s.1) with
  | none =>
    rw [Option.getD_none]
    omega
  | some i =>
    rw [Option.getD_some]
    obtain ⟨hi, -⟩ := List.findIdx?_eq_some_iff_getElem.mp hfind
    omega

theorem insertReqState_perm (states : List (ℚ × Nat)) :
    (insertReqState a states req).Perm (entries a [req] ++ states) := by
  unfold insertReqState
  split
  · rename_i hnone
    rw [entries_single_of_not_pos (not_lt.mpr hnone)]
    exact .refl _
  · rename_i hleft
    rw [entries_single_of_pos (not_le.mp hleft)]
    exact List.perm_insertIdx _ _ (insertPos_le states _)

theorem insertIdx_eq {α : Type} (xs : List α) (x : α) {i : Nat} (h : i ≤ xs.length) :
    xs.insertIdx i x = xs.take i ++ x :: xs.drop i := by
  induction xs generalizing i with
  | nil => rw [Nat.le_zero.mp h, List.insertIdx_zero, List.take_zero, List.drop_zero, List.nil_append]
  | cons y ys ih =>
    cases i with
    | zero => rfl
    | succ i =>
      rw [List.insertIdx_succ_cons, ih (Nat.le_of_succ_le_succ h), List.take_succ_cons,
        List.drop_succ_cons, List.cons_append]

/-- In a sorted list the place is right exactly when some entry has as many tokens
left: without one, the candidate goes before the last entry. -/
theorem insertIdx_sorted_iff {states : List (ℚ × Nat)} (hsorted : states.Pairwise (·.1 ≤ ·.1))
    (left : ℚ) (occupied : Nat) :
    (states.insertIdx (insertPos states left) (left, occupied)).Pairwise (·.1 ≤ ·.1) ↔
      states = [] ∨ ∃ s ∈ states, left ≤ s.1 := by
  cases hfind : states.findIdx? fun s => decide (left ≤ s.1) with
  | some i =>
    obtain ⟨hi, hle, hbefore⟩ := List.findIdx?_eq_some_iff_getElem.mp hfind
    refine iff_of_true ?_ (.inr ⟨_, List.getElem_mem hi, of_decide_eq_true hle⟩)
    rw [insertPos, hfind, Option.getD_some, insertIdx_eq states _ hi.le, List.pairwise_append]
    have hparts := List.take_append_drop i states ▸ hsorted
    rw [List.pairwise_append] at hparts
    have hrest : ∀ s ∈ states.drop i, left ≤ s.1 := by
      rw [List.drop_eq_getElem_cons hi] at hparts ⊢
      intro s hs
      rcases List.mem_cons.mp hs with rfl | hs
      · exact of_decide_eq_true hle
      · exact (of_decide_eq_true hle).trans ((List.pairwise_cons.mp hparts.2.1).1 s hs)
    refine ⟨hparts.1, List.pairwise_cons.mpr ⟨hrest, hparts.2.1⟩, ?_⟩
    intro s hs other hother
    rcases List.mem_cons.mp hother with rfl | hother
    · obtain ⟨j, hj, rfl⟩ := List.mem_take_iff_getElem.mp hs
      have hsmall := hbefore j (by omega)
      simp only [decide_eq_true_eq, not_le] at hsmall
      exact hsmall.le
    · exact hparts.2.2 s hs other hother
  | none =>
    have hsmall : ∀ s ∈ states, s.1 < left := by
      intro s hs
      have := List.findIdx?_eq_none_iff.mp hfind s hs
      simpa using this
    rcases List.eq_nil_or_concat states with rfl | ⟨init, last, rfl⟩
    · exact iff_of_true (List.pairwise_singleton _ _) (.inl rfl)
    · rw [List.concat_eq_append] at hsmall hfind ⊢
      have hlast := hsmall last (by simp)
      refine iff_of_false ?_ ?_
      · rw [insertPos, hfind, Option.getD_none, List.length_append, List.length_singleton,
          Nat.add_sub_cancel, insertIdx_eq _ _ (by simp), List.take_left, List.drop_left]
        intro h
        have htail := (List.pairwise_append.mp h).2.1
        exact absurd ((List.pairwise_cons.mp htail).1 last List.mem_cons_self) (not_le.mpr hlast)
      · rintro (h | ⟨s, hs, hle⟩)
        · simp at h
        · exact absurd hle (not_le.mpr (hsmall s hs))

theorem reqStatesWith_perm (h : ReqStatesTrack a) (req : WaitingReq R) :
    (reqStatesWith a req).Perm (entries a (req :: liveReqs a req.dpRank)) := by
  rw [← List.singleton_append, entries_append]
  unfold reqStatesWith
  split
  · rw [addReqState_entries, List.nil_append, List.append_assoc, entries_append]
    exact List.mergeSort_perm _ _
  · rename_i states hstates
    exact (insertReqState_perm states).trans ((h req.dpRank states hstates).exact.append_left _)

theorem reqStatesWith_sorted_iff (h : ReqStatesTrack a) :
    (reqStatesWith a req).Pairwise (·.1 ≤ ·.1) ↔ (0 < tokensLeft a req → HasPlace a req) := by
  unfold reqStatesWith HasPlace
  cases hstates : a.reqStates req.dpRank with
  | none =>
    refine iff_of_true ?_ (by simp)
    have htrans (x y z : ℚ × Nat) (hxy : decide (x.1 ≤ y.1) = true)
        (hyz : decide (y.1 ≤ z.1) = true) : decide (x.1 ≤ z.1) = true := by
      rw [decide_eq_true_eq] at hxy hyz ⊢
      exact hxy.trans hyz
    have htotal (x y : ℚ × Nat) : (decide (x.1 ≤ y.1) || decide (y.1 ≤ x.1)) = true := by
      rw [Bool.or_eq_true, decide_eq_true_eq, decide_eq_true_eq]
      exact le_total x.1 y.1
    have hsorted := List.pairwise_mergeSort htrans htotal
      (([req] ++ a.runningReqs req.dpRank ++ a.canRunList req.dpRank).foldl (addReqState a) [])
    exact hsorted.imp fun hle => of_decide_eq_true hle
  | some states =>
    have hsorted := (h req.dpRank states hstates).sorted
    dsimp only
    unfold insertReqState
    split
    · rename_i hnone
      exact iff_of_true hsorted fun hleft => absurd hleft (not_lt.mpr hnone)
    · rename_i hleft
      rw [insertIdx_sorted_iff hsorted]
      constructor
      · rintro hplace - states' heq
        cases heq
        exact hplace
      · intro hplace
        exact hplace (not_le.mp hleft) states rfl

/-! ### The call -/

theorem tokensSuffice_iff (curRemTokens : ℚ) (states : List (ℚ × Nat)) (tokensFreed : Nat) :
    tokensSuffice curRemTokens states tokensFreed = true ↔
      EndsAbove ignoreEosReserveTokens (curRemTokens + tokensFreed) states := by
  induction states generalizing tokensFreed with
  | nil => exact iff_of_true rfl trivial
  | cons entry rest ih =>
    obtain ⟨left, occupied⟩ := entry
    rw [tokensSuffice, EndsAbove]
    split
    · rename_i hshort
      refine iff_of_false (by simp) fun h => absurd h.1 (not_lt.mpr ?_)
      push_cast at hshort ⊢
      exact hshort
    · rename_i hmore
      rw [ih, Nat.cast_add, ← add_assoc]
      exact (and_iff_right (by push_cast at hmore ⊢; exact not_le.mp hmore)).symm

/-- What the requests' entries depend on. -/
structure SameSettings (a b : PrefillAdder τ R) : Prop where
  pageSize : b.pageSize = a.pageSize
  newTokenRatio : b.newTokenRatio = a.newTokenRatio
  runningReqs : b.runningReqs = a.runningReqs

theorem SameSettings.entries {b : PrefillAdder τ R} (h : SameSettings a b)
    (reqs : List (WaitingReq R)) : entries b reqs = entries a reqs := by
  have hleft : tokensLeft b = tokensLeft a := by
    funext r
    rw [tokensLeft, tokensLeft, h.pageSize, h.newTokenRatio]
  rw [PrefillAdder.entries, PrefillAdder.entries, hleft]

/-- The request was appended, whole or in part, and its tokens are taken. -/
structure Appended (cache : AdmissionCache τ R Λ) (a b : PrefillAdder τ R)
    (req part : WaitingReq R) : Prop where
  settings : SameSettings a b
  reqStates : b.reqStates = a.reqStates
  canRunList : b.canRunList =
    Function.update a.canRunList req.dpRank (a.canRunList req.dpRank ++ [part])
  left : tokensLeft a part = tokensLeft a req
  occupied : tokensOccupied part = tokensOccupied req
  tokens : curRemTokensForDp cache a req.dpRank - ceilPagedTokens a.pageSize req.extendInputLen ≤
    curRemTokensForDp cache b req.dpRank

theorem appended (chunked : Bool) (req part : WaitingReq R)
    (hleft : tokensLeft a part = tokensLeft a req)
    (hoccupied : tokensOccupied part = tokensOccupied req)
    (hshort : part.extendInputLen ≤ req.extendInputLen) (maxNewTokens : Nat) :
    Appended cache a (updatePrefillBudget cache (append a req.dpRank chunked part) req.dpRank 0
      part.extendInputLen maxNewTokens) req part := by
  refine ⟨⟨rfl, rfl, rfl⟩, rfl, rfl, hleft, hoccupied, ?_⟩
  have hceil : (ceilPagedTokens a.pageSize part.extendInputLen : ℚ) ≤
      ceilPagedTokens a.pageSize req.extendInputLen :=
    Int.cast_le.mpr (ceilPagedTokens_mono a.pageSize hshort)
  change (availableAndEvictable cache a req.dpRank : ℚ) - a.curRemTokenOffset req.dpRank - _ ≤
    (availableAndEvictable cache a req.dpRank : ℚ) - Function.update a.curRemTokenOffset req.dpRank
      (a.curRemTokenOffset req.dpRank + ceilPagedTokens a.pageSize part.extendInputLen) req.dpRank
  rw [Function.update_self]
  linarith

theorem ignoreEosAdmit_takes (cache : AdmissionCache τ R Λ) (h : chunkTakes a req = true) :
    ∃ part, Appended cache a (ignoreEosAdmit cache a req).1 req part := by
  unfold ignoreEosAdmit
  dsimp only
  cases hrem : a.remChunkTokensList with
  | none => exact ⟨req, appended false req req rfl rfl le_rfl _⟩
  | some rem =>
    dsimp only
    rw [chunkTakes, hrem, Option.all_some, Bool.or_eq_true, decide_eq_true_eq,
      decide_eq_true_eq] at h
    split
    · exact ⟨req, appended false req req rfl rfl le_rfl _⟩
    · rename_i hlong
      rw [if_neg (by omega)]
      let part : WaitingReq R := { req with
        extendInputLen := rem req.dpRank
        fillIds := req.fillIds.take (rem req.dpRank).toNat }
      exact ⟨part, appended true req part rfl rfl (not_le.mp hlong).le 0⟩

theorem ignoreEosAdmit_refuses (cache : AdmissionCache τ R Λ) (h : ¬ chunkTakes a req = true) :
    (ignoreEosAdmit cache a req).1 = a := by
  unfold ignoreEosAdmit
  dsimp only
  cases hrem : a.remChunkTokensList with
  | none => simp [chunkTakes, hrem] at h
  | some rem =>
    dsimp only
    rw [chunkTakes, hrem, Option.all_some, Bool.or_eq_true, decide_eq_true_eq,
      decide_eq_true_eq, not_or] at h
    rw [if_neg h.1, if_pos (by omega)]

/-- What a call can do: nothing, build the list alone, or build it and append. -/
theorem addOneReqIgnoreEos_cases (cache : AdmissionCache τ R Λ) (a : PrefillAdder τ R)
    (req : WaitingReq R) :
    let b := { a with
      reqStates := Function.update a.reqStates req.dpRank (some (reqStatesWith a req)) }
    (ignoreEosNoToken cache a req = true ∧ (addOneReqIgnoreEos cache a req).1 = a) ∨
    (ignoreEosNoToken cache a req = false ∧
      ¬ (ignoreEosFits cache a req = true ∧ chunkTakes a req = true) ∧
      (addOneReqIgnoreEos cache a req).1 = b) ∨
    (ignoreEosNoToken cache a req = false ∧ ignoreEosFits cache a req = true ∧
      chunkTakes a req = true ∧
      ∃ part, Appended cache b (addOneReqIgnoreEos cache a req).1 req part) := by
  intro b
  unfold addOneReqIgnoreEos
  cases hnone : ignoreEosNoToken cache a req with
  | true => exact .inl ⟨rfl, by simp⟩
  | false =>
    right
    dsimp only
    rw [if_neg (by simp)]
    by_cases hfits : ignoreEosFits cache a req = true
    · rw [if_pos hfits]
      by_cases htakes : chunkTakes a req = true
      · exact .inr ⟨rfl, hfits, htakes, ignoreEosAdmit_takes (a := b) cache htakes⟩
      · exact .inl ⟨rfl, fun h => htakes h.2, ignoreEosAdmit_refuses (a := b) cache htakes⟩
    · rw [if_neg hfits]
      exact .inl ⟨rfl, fun h => hfits h.1, rfl⟩

/-! ### One call -/

/-- A list that tracks its rank after the request is appended. -/
theorem Appended.entries {b : PrefillAdder τ R} {part : WaitingReq R}
    (h : Appended cache a b req part) : entries b (liveReqs b req.dpRank) =
      entries a (liveReqs a req.dpRank) ++ entries a [req] := by
  rw [h.settings.entries, liveReqs, h.settings.runningReqs, h.canRunList, Function.update_self,
    ← List.append_assoc, entries_append]
  congr 1
  by_cases hleft : 0 < tokensLeft a req
  · rw [entries_single_of_pos hleft, entries_single_of_pos (h.left ▸ hleft), h.left, h.occupied]
  · rw [entries_single_of_not_pos hleft, entries_single_of_not_pos (h.left ▸ hleft)]

theorem Appended.liveReqs_of_ne {b : PrefillAdder τ R} {part : WaitingReq R}
    (h : Appended cache a b req part) {dpRank : Nat} (hne : dpRank ≠ req.dpRank) :
    liveReqs b dpRank = liveReqs a dpRank := by
  rw [liveReqs, liveReqs, h.settings.runningReqs, h.canRunList, Function.update_of_ne hne]

/-- The lists track after a call exactly when the candidate stays. -/
theorem reqStatesTrack_iff (cache : AdmissionCache τ R Λ) (h : ReqStatesTrack a)
    (req : WaitingReq R) :
    ReqStatesTrack (addOneReqIgnoreEos cache a req).1 ↔ CandidateStays cache a req := by
  let b := { a with
    reqStates := Function.update a.reqStates req.dpRank (some (reqStatesWith a req)) }
  have hsettings : SameSettings a b := ⟨rfl, rfl, rfl⟩
  have hself : b.reqStates req.dpRank = some (reqStatesWith a req) := Function.update_self ..
  have hother {dpRank : Nat} (hne : dpRank ≠ req.dpRank) :
      b.reqStates dpRank = a.reqStates dpRank := Function.update_of_ne hne ..
  rcases addOneReqIgnoreEos_cases cache a req with
    ⟨hnone, heq⟩ | ⟨hreached, hrefused, heq⟩ | ⟨hreached, hfits, htakes, part, happended⟩
  · rw [heq]
    exact iff_of_true h fun hreached => by simp [hnone] at hreached
  · rw [heq]
    constructor
    · intro hafter _ hleft
      -- The entry of the refused candidate is one too many.
      have hperm := ((hafter req.dpRank _ hself).exact.symm.trans (reqStatesWith_perm h req)).length_eq
      change (entries b (liveReqs a req.dpRank)).length = _ at hperm
      rw [hsettings.entries, ← List.singleton_append, entries_append,
        entries_single_of_pos hleft] at hperm
      simp at hperm
    · intro hstays dpRank states hstates
      have hnone : ¬ 0 < tokensLeft a req := fun hleft => hrefused (hstays hreached hleft).2
      by_cases hrank : dpRank = req.dpRank
      · subst hrank
        rw [hself] at hstates
        cases hstates
        refine ⟨(reqStatesWith_sorted_iff h).mpr fun hleft => absurd hleft hnone, ?_⟩
        rw [hsettings.entries]
        have hperm := reqStatesWith_perm h req
        rwa [← List.singleton_append, entries_append, entries_single_of_not_pos hnone,
          List.nil_append] at hperm
      · rw [hother hrank] at hstates
        obtain ⟨hsorted, hexact⟩ := h dpRank states hstates
        refine ⟨hsorted, ?_⟩
        rw [hsettings.entries]
        exact hexact
  · have hentries := happended.entries
    rw [hsettings.entries, hsettings.entries] at hentries
    have hperm : (reqStatesWith a req).Perm
        (entries (addOneReqIgnoreEos cache a req).1
          (liveReqs (addOneReqIgnoreEos cache a req).1 req.dpRank)) := by
      rw [hentries]
      have hwith := reqStatesWith_perm h req
      rw [← List.singleton_append, entries_append] at hwith
      exact hwith.trans List.perm_append_comm
    constructor
    · intro hafter _ hleft
      have hsorted := (hafter req.dpRank _ (by rw [happended.reqStates, hself])).sorted
      exact ⟨(reqStatesWith_sorted_iff h).mp hsorted hleft, hfits, htakes⟩
    · intro hstays dpRank states hstates
      rw [happended.reqStates] at hstates
      by_cases hrank : dpRank = req.dpRank
      · subst hrank
        rw [hself] at hstates
        cases hstates
        exact ⟨(reqStatesWith_sorted_iff h).mpr fun hleft => (hstays hreached hleft).1, hperm⟩
      · rw [hother hrank] at hstates
        obtain ⟨hsorted, hexact⟩ := h dpRank states hstates
        refine ⟨hsorted, ?_⟩
        rw [happended.liveReqs_of_ne hrank, happended.settings.entries, hsettings.entries]
        exact hexact

/-- An admission from lists that track to lists that track is safe. -/
theorem admitsSafely_of_stays (cache : AdmissionCache τ R Λ) (h : ReqStatesTrack a)
    {req : WaitingReq R} (hstays : CandidateStays cache a req) : AdmitsSafely cache a req := by
  intro hadmitted
  rcases addOneReqIgnoreEos_cases cache a req with
    ⟨-, heq⟩ | ⟨-, -, heq⟩ | ⟨hreached, hfits, htakes, part, happended⟩
  · exact absurd (congrArg PrefillAdder.canRunList heq) hadmitted
  · exact absurd (congrArg PrefillAdder.canRunList heq) hadmitted
  · have hsettings : SameSettings a { a with
      reqStates := Function.update a.reqStates req.dpRank (some (reqStatesWith a req)) } :=
        ⟨rfl, rfl, rfl⟩
    have hafter := (reqStatesTrack_iff cache h req).mpr hstays
    obtain ⟨hsorted, hexact⟩ := hafter req.dpRank (reqStatesWith a req)
      (by rw [happended.reqStates]; exact Function.update_self ..)
    rw [ignoreEosFits, tokensSuffice_iff, Nat.cast_zero, add_zero] at hfits
    exact ((staysAbove_of_ends hsorted hfits).mono happended.tokens).perm hexact

/-! ### Sequences of calls -/

theorem runIgnoreEos_append (cache : AdmissionCache τ R Λ) (a : PrefillAdder τ R)
    (before : List (WaitingReq R)) (req : WaitingReq R) :
    runIgnoreEos cache a (before ++ [req]) =
      (addOneReqIgnoreEos cache (runIgnoreEos cache a before) req).1 := by
  rw [runIgnoreEos, List.foldl_append]
  rfl

/-- A new adder simulates a sequence of calls exactly when every candidate stays. -/
theorem simulates_iff (cache : AdmissionCache τ R Λ) (a : PrefillAdder τ R)
    (hnew : ∀ dpRank, a.reqStates dpRank = none) (reqs : List (WaitingReq R)) :
    Simulates cache a reqs ↔ ∀ before req, before ++ [req] <+: reqs →
      CandidateStays cache (runIgnoreEos cache a before) req := by
  constructor
  · intro h before req hcall
    have hbefore := h.tracks before ((List.prefix_append before [req]).trans hcall)
    have hafter := h.tracks (before ++ [req]) hcall
    rw [runIgnoreEos_append] at hafter
    exact (reqStatesTrack_iff cache hbefore req).mp hafter
  · intro h
    have htracks (before : List (WaitingReq R)) (hcalls : before <+: reqs) :
        ReqStatesTrack (runIgnoreEos cache a before) := by
      induction before using List.reverseRecOn with
      | nil =>
        intro dpRank states hstates
        rw [show (runIgnoreEos cache a []).reqStates dpRank = none from hnew dpRank] at hstates
        cases hstates
      | append_singleton before req ih =>
        rw [runIgnoreEos_append]
        have hbefore := ih ((List.prefix_append before [req]).trans hcalls)
        exact (reqStatesTrack_iff cache hbefore req).mpr (h before req hcalls)
    refine ⟨htracks, ?_⟩
    intro before req hcall
    exact admitsSafely_of_stays cache (htracks before ((List.prefix_append before [req]).trans hcall))
      (h before req hcall)

/-! A candidate with more tokens left than the others, after them and before them. -/

def leftReq (maxNewTokens : Nat) : WaitingReq Unit := { longReq with maxNewTokens := maxNewTokens }

/-- It is put before the last entry, so the list is not sorted. -/
theorem tenLeft_unsorted :
    (runIgnoreEos radixAdmission tightAdder [leftReq 5, leftReq 10]).reqStates 0 =
        some [(10, 1), (5, 1)] ∧
      ¬ Simulates radixAdmission tightAdder [leftReq 5, leftReq 10] := by
  have hstates : (runIgnoreEos radixAdmission tightAdder [leftReq 5, leftReq 10]).reqStates 0 =
      some [(10, 1), (5, 1)] := by decide +kernel
  refine ⟨hstates, fun h => ?_⟩
  have hsorted := (h.tracks _ List.prefix_rfl 0 _ hstates).sorted
  norm_num at hsorted

theorem tenLeft_first : Simulates radixAdmission tightAdder [leftReq 10, leftReq 5] := by
  apply (simulates_iff radixAdmission tightAdder (fun _ => rfl) _).mpr
  rintro (_ | ⟨first, _ | ⟨second, rest⟩⟩) req hcall
  · obtain ⟨rfl, -⟩ := List.cons_prefix_cons.mp hcall
    intro _ _
    refine ⟨fun states hstates => ?_, by decide +kernel, rfl⟩
    cases hstates
  · obtain ⟨rfl, hrest⟩ := List.cons_prefix_cons.mp hcall
    obtain ⟨rfl, -⟩ := List.cons_prefix_cons.mp hrest
    have hbuilt : (runIgnoreEos radixAdmission tightAdder [leftReq 10]).reqStates 0 =
        some [(10, 1)] := by decide +kernel
    intro _ _
    refine ⟨fun states hstates => .inr ?_, by decide +kernel, by decide +kernel⟩
    rw [show (leftReq 5).dpRank = 0 from rfl, hbuilt] at hstates
    cases hstates
    exact ⟨(10, 1), List.mem_singleton_self _, by decide +kernel⟩
  · have hlen := hcall.length_le
    simp at hlen

end PrefillAdder
end SglJax.Managers
