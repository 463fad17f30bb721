import SglJax.Managers.PrefillResult

/-! Which part of the flat input-logprob array each request of a prefill batch
gets. The array holds the entries of all requests in order, but the walking
pointer moves past the entries of some of them only. -/
namespace SglJax.Managers

section

variable {α : Type}

/-- A flat array as the model runner returns it when every rank is padded to
`size` entries. -/
inductive PaddedLayout (size : Nat) : List Nat → List α → List α → Prop where
  | nil : PaddedLayout size [] [] []
  | cons {len : Nat} {lens : List Nat} {entries padding flat values : List α}
      (hlen : entries.length = len) (hsize : entries.length + padding.length = size)
      (rest : PaddedLayout size lens flat values) :
      PaddedLayout size (len :: lens) (entries ++ flat) (entries ++ padding ++ values)

/-- The values the runner returns for a batch whose entries are `flat`: compact,
or padded by rank. -/
def Layout (lens : List Nat) (flat values : List α) : Prop :=
  flat.length = lens.sum ∧ (values = flat ∨ ∃ size, PaddedLayout size lens flat values)

section Layout

variable {size : Nat} {lens : List Nat} {flat values : List α}

theorem PaddedLayout.length_values (h : PaddedLayout size lens flat values) :
    values.length = lens.length * size := by
  induction h with
  | nil => simp
  | cons hlen hsize rest ih =>
    simp only [List.length_append, List.length_cons, ih, Nat.add_mul, Nat.one_mul]
    omega

theorem PaddedLayout.length_flat_le (h : PaddedLayout size lens flat values) :
    flat.length ≤ values.length := by
  induction h with
  | nil => simp
  | cons hlen hsize rest ih =>
    simp only [List.length_append]
    omega

theorem PaddedLayout.eq_of_length (h : PaddedLayout size lens flat values)
    (hlen : values.length = flat.length) : values = flat := by
  induction h with
  | nil => rfl
  | @cons _ _ entries padding flat values _ _ rest ih =>
    have hle := rest.length_flat_le
    simp only [List.length_append] at hlen
    have hnil : padding = [] := List.length_eq_zero_iff.mp (by omega)
    rw [hnil, List.append_nil, ih (by omega)]

theorem PaddedLayout.compactValues_eq (h : PaddedLayout size lens flat values) :
    compactValues size lens values = flat := by
  induction h with
  | nil => rfl
  | @cons len lens entries padding flat values hlen hsize rest ih =>
    have htake : (entries ++ padding ++ values).take len = entries := by
      rw [List.append_assoc, ← hlen, List.take_left]
    have hdrop : (entries ++ padding ++ values).drop size = values := by
      rw [← hsize, ← List.length_append, List.drop_left]
    rw [compactValues, htake, hdrop, ih]

/-- Materializing gives back the entries of all requests, in order. -/
theorem Layout.materialize_eq (h : Layout lens flat values) :
    materializeInputTokenLogprobs values lens = flat := by
  obtain ⟨hflat, rfl | ⟨size, hpad⟩⟩ := h
  · unfold materializeInputTokenLogprobs
    rw [if_neg]
    rintro ⟨-, hne, -⟩
    exact hne hflat
  · have hlen := hpad.length_values
    unfold materializeInputTokenLogprobs
    split
    · rename_i hcond
      have hpos : 0 < lens.length := List.length_pos_iff.mpr hcond.1
      rw [hlen, Nat.mul_div_cancel_left _ hpos]
      exact hpad.compactValues_eq
    · rename_i hcond
      apply hpad.eq_of_length
      by_contra hne
      apply hcond
      refine ⟨?_, by omega, ?_⟩
      · rintro rfl
        cases hpad
        exact hne rfl
      · rw [hlen]
        exact Nat.mul_mod_right _ _

end Layout

/-! ### One request -/

namespace BatchItem

/-- The entries of the request in the flat array. -/
def num (item : BatchItem α) : Nat := item.req.numInputLogprobs

/-- The pointer is not moved past the request's entries. -/
def Skipped (item : BatchItem α) : Prop :=
  item.req.finished = true ∨ item.req.isRetracted = true ∨ item.req.returnLogprob = false

/-- A slice of the flat array is stored into the request. -/
def Stores (item : BatchItem α) : Prop :=
  item.req.finished = false ∧ item.req.isRetracted = false ∧ item.req.returnLogprob = true ∧
    item.req.inputTokenLogprobsVal = none ∧ (item.req.isChunked ≤ 0 ∨ item.pendingAbort = false)

instance (item : BatchItem α) : Decidable item.Skipped := inferInstanceAs (Decidable (_ ∨ _))

/-- How far the pointer moves at the request. -/
def advance (item : BatchItem α) : Nat := if item.Skipped then 0 else item.num

theorem advance_le (item : BatchItem α) : item.advance ≤ item.num := by
  unfold advance
  split <;> omega

theorem advance_eq_num_iff (item : BatchItem α) :
    item.advance = item.num ↔ (item.Skipped → item.num = 0) := by
  unfold advance
  split
  · rename_i h
    exact ⟨fun heq _ => heq.symm, fun hzero => (hzero h).symm⟩
  · rename_i h
    exact ⟨fun _ hskip => absurd hskip h, fun _ => rfl⟩

/-- The body of the loop at the item, with the entries counted by the item
itself. -/
def visit (flat : List α) (logprobPt : Nat) (item : BatchItem α) : Visited α :=
  visitReq flat item.num logprobPt item.nextTokenId item.pendingAbort item.finishes item.req

theorem visit_logprobPt (flat : List α) (logprobPt : Nat) (item : BatchItem α) :
    (item.visit flat logprobPt).logprobPt = logprobPt + item.advance := by
  unfold visit visitReq
  split
  · rename_i h
    have hskip : item.Skipped := by
      rw [Bool.or_eq_true] at h
      unfold Skipped
      tauto
    rw [advance, if_pos hskip, Nat.add_zero]
  rename_i h
  simp only [Bool.or_eq_true, not_or, Bool.not_eq_true] at h
  by_cases hlp : item.req.returnLogprob = true
  · have hread : ¬ item.Skipped := by simp [Skipped, h.1, h.2, hlp]
    rw [advance, if_neg hread]
    rcases Nat.eq_zero_or_pos item.num with hzero | hpos
    · split
      · simp [hlp]
      · split <;> simp [hzero]
    · split
      · simp [hlp]
      · split <;> simp [hlp, hpos]
  · have hskip : item.Skipped := by simp [Skipped, hlp]
    rw [advance, if_pos hskip]
    split
    · simp [hlp]
    · split <;> simp [hlp]

theorem addInputLogprobReturnValues_stored {req : Req α} {flat : List α} {pt num : Nat}
    {last : Bool} : (addInputLogprobReturnValues req flat pt num last).2 =
      if req.inputTokenLogprobsVal = none then some ((flat.drop pt).take num) else none := by
  unfold addInputLogprobReturnValues
  dsimp only
  cases req.inputTokenLogprobsVal with
  | none => cases last <;> rfl
  | some val => rfl

/-- What is stored is the slice at the pointer. -/
theorem visit_stored_eq {flat slice : List α} {logprobPt : Nat} {item : BatchItem α}
    (h : (item.visit flat logprobPt).stored = some slice) :
    item.Stores ∧ slice = (flat.drop logprobPt).take item.num := by
  unfold visit visitReq at h
  split at h
  · cases h
  rename_i hlive
  simp only [Bool.or_eq_true, not_or, Bool.not_eq_true] at hlive
  split at h
  · rename_i hfinal
    dsimp only at h
    split at h
    · rename_i hlp
      rw [addInputLogprobReturnValues_stored] at h
      split at h
      · rename_i hnone
        cases h
        exact ⟨⟨hlive.1, hlive.2, hlp, hnone, .inl hfinal⟩, rfl⟩
      · cases h
    · cases h
  · dsimp only at h
    split at h
    · cases h
    · rename_i hpending
      split at h
      · rename_i hlp
        rw [addInputLogprobReturnValues_stored] at h
        split at h
        · rename_i hnone
          simp only [Bool.and_eq_true] at hlp
          cases h
          exact ⟨⟨hlive.1, hlive.2, hlp.1, hnone, .inr (by simpa using hpending)⟩, rfl⟩
        · cases h
      · cases h

theorem visit_stored_of_stores {item : BatchItem α} (h : item.Stores) (hpos : 0 < item.num)
    (flat : List α) (logprobPt : Nat) :
    (item.visit flat logprobPt).stored = some ((flat.drop logprobPt).take item.num) := by
  obtain ⟨hfin, hret, hlp, hnone, hbranch⟩ := h
  unfold visit visitReq
  rw [if_neg (by simp [hfin, hret])]
  split
  · simp [hlp, addInputLogprobReturnValues_stored, hnone]
  · rename_i hchunked
    have hpending : item.pendingAbort = false := by tauto
    simp [hpending, hlp, hpos, addInputLogprobReturnValues_stored, hnone]

end BatchItem

/-! ### The whole batch -/

/-- Where the entries of the `k`-th request start in the flat array. -/
def sliceStart (items : List (BatchItem α)) (k : Nat) : Nat :=
  ((items.take k).map BatchItem.num).sum

/-- Where the pointer stands at the `k`-th request. -/
def pointerAt (items : List (BatchItem α)) (k : Nat) : Nat :=
  ((items.take k).map BatchItem.advance).sum

theorem numInputLogprobs_at (done rest : List (BatchItem α)) (item : BatchItem α) :
    numInputLogprobs done.length
      ((done ++ item :: rest).map fun i => i.req.extendInputLen)
      ((done ++ item :: rest).map fun i => i.req.extendLogprobStartLen) = some item.num := by
  unfold numInputLogprobs
  rw [List.getElem?_map, List.getElem?_map, List.getElem?_append_right (Nat.le_refl _),
    Nat.sub_self, List.getElem?_cons_zero]
  rfl

/-- The loop visits every request with its own count and the pointer left by
the requests before it. -/
theorem visitAll_eq (flat : List α) (done items : List (BatchItem α)) (logprobPt : Nat) :
    ∃ visited, visitAll flat ((done ++ items).map fun i => i.req.extendInputLen)
        ((done ++ items).map fun i => i.req.extendLogprobStartLen) items done.length logprobPt =
        some visited ∧
      ∀ k, visited[k]? = items[k]?.map fun item : BatchItem α =>
        item.visit flat (logprobPt + pointerAt items k) := by
  induction items generalizing done logprobPt with
  | nil => exact ⟨[], rfl, by simp⟩
  | cons item rest ih =>
    obtain ⟨visited, heq, hvisited⟩ := ih (done ++ [item]) (logprobPt + item.advance)
    rw [List.append_assoc, List.singleton_append, List.length_append, List.length_singleton] at heq
    have hpt := item.visit_logprobPt flat logprobPt
    refine ⟨item.visit flat logprobPt :: visited, ?_, ?_⟩
    · rw [visitAll, numInputLogprobs_at]
      change (visitAll flat _ _ rest (done.length + 1) (item.visit flat logprobPt).logprobPt).bind _ =
        _
      rw [hpt, heq]
      rfl
    · intro k
      cases k with
      | zero => simp [pointerAt]
      | succ k =>
        rw [List.getElem?_cons_succ, List.getElem?_cons_succ, hvisited]
        simp [pointerAt, Nat.add_assoc]

theorem process_eq (batch : List (List (BatchItem α))) {flat values : List α}
    (h : Layout (inputLogprobLensPerDp (batch.map fun items => items.map BatchItem.req))
      flat values) :
    ∃ visited, processBatchResultPrefill batch values = some visited ∧
      ∀ k, visited[k]? = batch.flatten[k]?.map fun item : BatchItem α =>
        item.visit flat (pointerAt batch.flatten k) := by
  obtain ⟨visited, heq, hvisited⟩ := visitAll_eq flat [] batch.flatten 0
  refine ⟨visited, ?_, by simpa using hvisited⟩
  unfold processBatchResultPrefill
  dsimp only
  rw [h.materialize_eq, ← List.map_flatten, List.map_map, List.map_map]
  exact heq

/-- Every slice that is stored into a request consists of its own entries,
whatever the runner returns. -/
def SlicesAttributed (batch : List (List (BatchItem α))) : Prop :=
  ∀ flat values : List α,
    Layout (inputLogprobLensPerDp (batch.map fun items => items.map BatchItem.req)) flat values →
    ∃ visited, processBatchResultPrefill batch values = some visited ∧
      ∀ (k : Nat) (item : BatchItem α) (v : Visited α) (slice : List α),
        batch.flatten[k]? = some item → visited[k]? = some v → v.stored = some slice →
        slice = (flat.drop (sliceStart batch.flatten k)).take item.num

theorem pointerAt_le (items : List (BatchItem α)) (k : Nat) :
    pointerAt items k ≤ sliceStart items k := by
  unfold pointerAt sliceStart
  induction items.take k with
  | nil => simp
  | cons item rest ih =>
    have := item.advance_le
    simp only [List.map_cons, List.sum_cons]
    omega

theorem pointerAt_eq_iff (items : List (BatchItem α)) (k : Nat) :
    pointerAt items k = sliceStart items k ↔
      ∀ item ∈ items.take k, item.Skipped → item.num = 0 := by
  have hsum : ∀ l : List (BatchItem α),
      (l.map BatchItem.advance).sum ≤ (l.map BatchItem.num).sum ∧
      ((l.map BatchItem.advance).sum = (l.map BatchItem.num).sum ↔
        ∀ item ∈ l, item.Skipped → item.num = 0) := by
    intro l
    induction l with
    | nil => simp
    | cons item rest ih =>
      have hle := item.advance_le
      have hiff := item.advance_eq_num_iff
      simp only [List.map_cons, List.sum_cons, List.forall_mem_cons, ← hiff, ← ih.2]
      omega
  exact (hsum (items.take k)).2

theorem sliceStart_add_le (items : List (BatchItem α)) {k : Nat} {item : BatchItem α}
    (h : items[k]? = some item) :
    sliceStart items k + item.num ≤ (items.map BatchItem.num).sum := by
  obtain ⟨hk, rfl⟩ := List.getElem?_eq_some_iff.mp h
  unfold sliceStart
  conv_rhs => rw [← List.take_append_drop k items, List.drop_eq_getElem_cons hk]
  simp only [List.map_append, List.map_cons, List.sum_append, List.sum_cons]
  omega

theorem sum_inputLogprobLensPerDp (batch : List (List (BatchItem α))) :
    (inputLogprobLensPerDp (batch.map fun items => items.map BatchItem.req)).sum =
      (batch.flatten.map BatchItem.num).sum := by
  unfold inputLogprobLensPerDp
  induction batch with
  | nil => rfl
  | cons items rest ih =>
    rw [List.map_cons, List.map_cons, List.sum_cons, ih, List.flatten_cons, List.map_append,
      List.sum_append, List.map_map]
    rfl

/-- Requests get their own entries exactly when no request that stores some is
preceded by one with entries that the pointer skips: a finished or retracted
request, or one that did not ask for log probabilities. -/
theorem slices_attributed_iff [Nontrivial α] (batch : List (List (BatchItem α))) :
    SlicesAttributed batch ↔
      ∀ (k : Nat) (item : BatchItem α), batch.flatten[k]? = some item → item.Stores →
        0 < item.num → ∀ other ∈ batch.flatten.take k, other.Skipped → other.num = 0 := by
  constructor
  · intro h k item hitem hstores hpos
    rw [← pointerAt_eq_iff]
    -- An array that holds a different value only where the request's entries start.
    obtain ⟨x, y, hxy⟩ := exists_pair_ne α
    set start := sliceStart batch.flatten k with hstart
    set pt := pointerAt batch.flatten k with hpt
    set total := (batch.flatten.map BatchItem.num).sum with htotal
    have hle : pt ≤ start := pointerAt_le _ _
    have hend : start + item.num ≤ total := sliceStart_add_le _ hitem
    set flat := (List.range total).map fun i => if i = start then y else x with hflat
    have hlen : flat.length = total := by simp [hflat]
    have hlayout : Layout (inputLogprobLensPerDp (batch.map fun items =>
        items.map BatchItem.req)) flat flat :=
      ⟨by rw [hlen, sum_inputLogprobLensPerDp], .inl rfl⟩
    obtain ⟨visited, heq, hslices⟩ := h flat flat hlayout
    obtain ⟨visited', heq', hvisited⟩ := process_eq batch hlayout
    obtain rfl : visited = visited' := Option.some.inj (heq.symm.trans heq')
    have hv := hvisited k
    rw [hitem, Option.map_some] at hv
    have hslice := hslices k item _ _ hitem hv
      (BatchItem.visit_stored_of_stores hstores hpos flat pt)
    have hhead := congrArg List.head? hslice
    rw [List.head?_take, List.head?_take, if_neg (Nat.ne_of_gt hpos),
      if_neg (Nat.ne_of_gt hpos), List.head?_drop,
      List.head?_drop, hflat, List.getElem?_map, List.getElem?_map,
      List.getElem?_range (by omega), List.getElem?_range (by omega)] at hhead
    simp only [Option.map_some, Option.some.injEq, ← hstart, if_true] at hhead
    by_contra hne
    rw [if_neg hne] at hhead
    exact hxy hhead
  · intro h flat values hlayout
    obtain ⟨visited, heq, hvisited⟩ := process_eq batch hlayout
    refine ⟨visited, heq, ?_⟩
    intro k item v slice hitem hv hstored
    have hvk := hvisited k
    rw [hitem, Option.map_some, hv] at hvk
    cases hvk
    obtain ⟨hstores, rfl⟩ := BatchItem.visit_stored_eq hstored
    rcases Nat.eq_zero_or_pos item.num with hzero | hpos
    · simp [hzero]
    · rw [(pointerAt_eq_iff _ _).mpr (h k item hitem hstores hpos)]

end

/-- A prompt of `len` tokens, prefilled at once. -/
def freshItem (rid : String) (len logprobStartLen : Nat) (returnLogprob : Bool) :
    BatchItem Nat where
  req :=
    { rid, prefixLen := 0, extendInputLen := len, seqlen := len, logprobStartLen, returnLogprob,
      isChunked := 0, finished := false, isRetracted := false, outputIds := [],
      inputTokenLogprobs := none, inputTokenLogprobsVal := none }
  nextTokenId := 7
  pendingAbort := false
  finishes := false

/-- The request that wants log probabilities comes first. -/
def askerFirst : List (List (BatchItem Nat)) :=
  [[freshItem "asker" 3 0 true, freshItem "plain" 4 3 false]]

theorem askerFirst_slices_attributed : SlicesAttributed askerFirst := by
  apply (slices_attributed_iff askerFirst).mpr
  intro k item hitem hstores hpos other hother hskip
  match k with
  | 0 => simp at hother
  | 1 =>
    obtain rfl : freshItem "plain" 4 3 false = item := Option.some.inj hitem
    exact absurd hstores.2.2.1 (by decide)
  | k + 2 => cases hitem

/-- The other order. -/
def plainFirst : List (List (BatchItem Nat)) :=
  [[freshItem "plain" 4 3 false, freshItem "asker" 3 0 true]]

/-- The entry of the plain request goes to the one that follows it. -/
theorem plainFirst_slices_shifted : ¬ SlicesAttributed plainFirst := by
  intro h
  obtain ⟨visited, heq, hslices⟩ := h [10, 20, 21, 22] [10, 20, 21, 22] ⟨by decide, .inl rfl⟩
  have hstored : (visited[1]?.bind Visited.stored) = some [10, 20, 21] := by
    rw [← Option.some.inj heq]
    decide
  obtain ⟨v, hv, hslice⟩ := Option.bind_eq_some_iff.mp hstored
  have := hslices 1 (freshItem "asker" 3 0 true) v _ rfl hv hslice
  exact absurd this (by decide)

end SglJax.Managers
