import SglJax.Managers.BatchFlags

/-! The arrays of a rank against its requests. Every operation treats all arrays
alike, except that `merge_batch` decides by the flags of the two batches what
becomes of the logprob lists: lists that are left over from requests that are gone
are not extended, and a rank that has requests in one batch only gets no lists when
the other batch brings the flag. -/
namespace SglJax.Managers

open Foundation

variable {ρ : Type}

/-- An entry of `top_logprobs_nums` that belongs to a request: its own number, or the
default where it asked for no logprobs. -/
def BatchReq.OwnsNum (r : BatchReq ρ) (num : Nat) : Prop :=
  num = r.topLogprobsNum ∨ (r.returnLogprob = false ∧ num = 0)

def BatchReq.OwnsTokenIds (r : BatchReq ρ) (tokenIds : Option (List Nat)) : Prop :=
  tokenIds = r.tokenIdsLogprob ∨ (r.returnLogprob = false ∧ tokenIds = none)

/-- The sampling arrays have the parameters of the requests. -/
structure SamplingBatchInfo.Aligned (reqs : List (BatchReq ρ)) (s : SamplingBatchInfo ρ) :
    Prop where
  temperatures : Beside (fun r x => r.samplingParams.temperature = x) reqs (some s.temperatures)
  topPs : Beside (fun r x => r.samplingParams.topP = x) reqs (some s.topPs)
  topKs : Beside (fun r x => r.samplingParams.topK = x) reqs (some s.topKs)
  minPs : Beside (fun r x => r.samplingParams.minP = x) reqs (some s.minPs)
  samplingSeeds : Beside (fun r x => r.samplingParams.samplingSeed = x) reqs s.samplingSeeds

namespace ScheduleReqsInfo

/-- The entries of every array of a rank belong to its requests, one each. The
logprob lists are there when the batch returns logprobs and the arrays of the rank
were prepared. -/
structure Aligned (returnLogprob : Bool) (info : ScheduleReqsInfo ρ) : Prop where
  reqPoolIndices : Beside (fun r x => r.reqPoolIdx = some x) info.reqs info.reqPoolIndices
  seqLens : Beside (fun r x => r.kvCommittedLen = x) info.reqs info.seqLens
  outputIds : Beside (fun r x => r.nextToken = some x) info.reqs info.outputIds
  topLogprobsNums : Beside BatchReq.OwnsNum info.reqs info.topLogprobsNums
  tokenIdsLogprobs : Beside BatchReq.OwnsTokenIds info.reqs info.tokenIdsLogprobs
  samplingInfo : ∀ s, info.samplingInfo = some s → s.Aligned info.reqs
  seqLensSum : info.seqLensSum = (info.seqLens.getD []).sum
  lists : returnLogprob = true → info.seqLens.isSome → info.reqs ≠ [] →
    info.topLogprobsNums.isSome ∧ info.tokenIdsLogprobs.isSome

/-- What is true of a rank between operations. -/
structure Sound (enableDeterministic returnLogprob : Bool) (info : ScheduleReqsInfo ρ) : Prop
    extends Aligned returnLogprob info where
  paired : info.topLogprobsNums.isSome = info.tokenIdsLogprobs.isSome
  seeds : ∀ s, info.samplingInfo = some s → s.samplingSeeds.isSome = enableDeterministic
  arrays : info.seqLens.isSome → info.reqs ≠ [] →
    info.reqPoolIndices.isSome ∧ info.samplingInfo.isSome

/-- The two ranks of a merge fit: with requests in both, both were prepared, the
output ids are not lost in the second, and no lists are left over in the first when
neither batch returns logprobs; with requests in one, it has the lists that the flag
of the other asks for. -/
structure MergeFits (selfReturns otherReturns : Bool) (rank other : ScheduleReqsInfo ρ) :
    Prop where
  prepared : rank.reqs ≠ [] → other.reqs ≠ [] → rank.seqLens.isSome ∧ other.seqLens.isSome
  outputIds : rank.reqs ≠ [] → other.reqs ≠ [] → rank.outputIds.isSome → other.outputIds.isSome
  leftOver : rank.reqs ≠ [] → other.reqs ≠ [] → selfReturns = false → otherReturns = false →
    rank.topLogprobsNums = none
  onlyOther : rank.reqs = [] → other.reqs ≠ [] → other.seqLens.isSome → selfReturns = true →
    otherReturns = true ∨ other.topLogprobsNums.isSome
  onlySelf : rank.reqs ≠ [] → other.reqs = [] → rank.seqLens.isSome → otherReturns = true →
    selfReturns = true ∨ rank.topLogprobsNums.isSome

/-- At most one request of a rank has a slot already, and it is chunked. -/
structure SlotsFit (info : ScheduleReqsInfo ρ) : Prop where
  oneChunk : (info.reqs.filter (·.reqPoolIdx.isSome)).length ≤ 1
  chunked : ∀ r ∈ info.reqs, r.reqPoolIdx.isSome → r.isChunked ≠ 0 ∨ r.kvCommittedLen ≠ 0

/-- The slots that the requests of a rank still need. -/
def slotsNeeded (info : ScheduleReqsInfo ρ) : Nat :=
  info.reqs.length - (info.reqs.filter (·.reqPoolIdx.isSome)).length

end ScheduleReqsInfo

/-- The operations of a run in which the pools serve every batch, a forward pass has
a place for every request, only prepared ranks are decoded, `keep_indices` are
positions in the batch, and merged ranks fit. -/
def BatchCare.rows (enableDeterministic : Bool) : BatchCare ρ where
  extend mem b := mem.enableDeterministic = enableDeterministic ∧
    (b.reqsInfo.map ScheduleReqsInfo.slotsNeeded).sum ≤ mem.freeSlots.length ∧
    ∀ (rank : Nat) info, b.reqsInfo[rank]? = some info → info.reqs ≠ [] →
      info.SlotsFit ∧ mem.kvServed rank = true
  forward nextTokenIdsFlat perDpBsSize b :=
    nextTokenIdsFlat.length = b.dpSize * perDpBsSize ∧
    ∀ info ∈ b.reqsInfo, info.reqs.length ≤ perDpBsSize
  decode kvServed b := ∀ (rank : Nat) info, b.reqsInfo[rank]? = some info → info.reqs ≠ [] →
    info.seqLens.isSome ∧ kvServed rank = true
  filter _ keepIndices b := ∀ keep, keepIndices = some keep → ∀ (rank : Nat) info,
    b.reqsInfo[rank]? = some info → ∀ i ∈ (keep rank).getD [], i < info.reqs.length
  merge b other := b.dpSize = other.dpSize ∧ ∀ (rank : Nat) info info',
    b.reqsInfo[rank]? = some info → other.reqsInfo[rank]? = some info' →
      info.MergeFits b.returnLogprob other.returnLogprob info'

/-! A request that keeps its wishes keeps its entries in the lists it asked for. -/

/-- The later state of a request has the same wishes. -/
structure BatchReq.SameWishes (r r' : BatchReq ρ) : Prop where
  samplingParams : r'.samplingParams = r.samplingParams
  returnLogprob : r'.returnLogprob = r.returnLogprob
  topLogprobsNum : r'.topLogprobsNum = r.topLogprobsNum
  tokenIdsLogprob : r'.tokenIdsLogprob = r.tokenIdsLogprob

namespace BatchReq.SameWishes

variable {r r' : BatchReq ρ}

theorem ownsNum (h : SameWishes r r') (num : Nat) (hnum : r.OwnsNum num) : r'.OwnsNum num := by
  simpa only [OwnsNum, h.topLogprobsNum, h.returnLogprob] using hnum

theorem ownsTokenIds (h : SameWishes r r') (tokenIds : Option (List Nat))
    (hids : r.OwnsTokenIds tokenIds) : r'.OwnsTokenIds tokenIds := by
  simpa only [OwnsTokenIds, h.tokenIdsLogprob, h.returnLogprob] using hids

end BatchReq.SameWishes

theorem SamplingBatchInfo.Aligned.sameWishes {reqs reqs' : List (BatchReq ρ)}
    {s : SamplingBatchInfo ρ} (hs : s.Aligned reqs)
    (h : List.Forall₂ BatchReq.SameWishes reqs reqs') : s.Aligned reqs' where
  temperatures := hs.temperatures.rows (h.imp (fun _ _ hw x hx => by rw [hw.samplingParams, hx]))
  topPs := hs.topPs.rows (h.imp (fun _ _ hw x hx => by rw [hw.samplingParams, hx]))
  topKs := hs.topKs.rows (h.imp (fun _ _ hw x hx => by rw [hw.samplingParams, hx]))
  minPs := hs.minPs.rows (h.imp (fun _ _ hw x hx => by rw [hw.samplingParams, hx]))
  samplingSeeds :=
    hs.samplingSeeds.rows (h.imp (fun _ _ hw x hx => by rw [hw.samplingParams, hx]))

theorem SamplingBatchInfo.aligned_fromScheduleBatch (enableDeterministic : Bool)
    (reqs : List (BatchReq ρ)) : (fromScheduleBatch enableDeterministic reqs).Aligned reqs where
  temperatures := .of_map (fun _ _ => rfl)
  topPs := .of_map (fun _ _ => rfl)
  topKs := .of_map (fun _ _ => rfl)
  minPs := .of_map (fun _ _ => rfl)
  samplingSeeds := by
    unfold fromScheduleBatch
    cases enableDeterministic with
    | true => exact .of_map (fun _ _ => rfl)
    | false => exact .absent _

namespace ScheduleReqsInfo

variable {det flag : Bool} {info info' : ScheduleReqsInfo ρ}

theorem sound_fresh (reqs : List (BatchReq ρ)) : Sound det flag { reqs := reqs } where
  reqPoolIndices := .absent _
  seqLens := .absent _
  outputIds := .absent _
  topLogprobsNums := .absent _
  tokenIdsLogprobs := .absent _
  samplingInfo := by simp
  seqLensSum := rfl
  lists := by simp
  paired := rfl
  seeds := by simp
  arrays := by simp

/-- An operation that keeps the wishes of the requests and the lists beside them. -/
theorem Sound.keep (h : Sound det flag info)
    (hwishes : List.Forall₂ BatchReq.SameWishes info.reqs info'.reqs)
    (hpool : Beside (fun r x => r.reqPoolIdx = some x) info'.reqs info'.reqPoolIndices)
    (hlens : Beside (fun r x => r.kvCommittedLen = x) info'.reqs info'.seqLens)
    (houtput : Beside (fun r x => r.nextToken = some x) info'.reqs info'.outputIds)
    (hsum : info'.seqLensSum = (info'.seqLens.getD []).sum)
    (hnums : info'.topLogprobsNums = info.topLogprobsNums)
    (hids : info'.tokenIdsLogprobs = info.tokenIdsLogprobs)
    (hsampling : info'.samplingInfo = info.samplingInfo)
    (harrays : info'.seqLens.isSome → info'.reqs ≠ [] →
      info.seqLens.isSome ∧ info'.reqPoolIndices.isSome) : Sound det flag info' := by
  have hne : info'.reqs ≠ [] → info.reqs ≠ [] := by
    intro hne hnil
    rw [hnil, List.forall₂_nil_left_iff] at hwishes
    exact hne hwishes
  exact {
    reqPoolIndices := hpool
    seqLens := hlens
    outputIds := houtput
    topLogprobsNums := by
      rw [hnums]
      exact h.topLogprobsNums.rows (hwishes.imp (fun _ _ hw => hw.ownsNum))
    tokenIdsLogprobs := by
      rw [hids]
      exact h.tokenIdsLogprobs.rows (hwishes.imp (fun _ _ hw => hw.ownsTokenIds))
    samplingInfo := by
      intro s hs
      rw [hsampling] at hs
      exact (h.samplingInfo s hs).sameWishes hwishes
    seqLensSum := hsum
    lists := by
      intro hflag hlen hreqs
      rw [hnums, hids]
      exact h.lists hflag (harrays hlen hreqs).1 (hne hreqs)
    paired := by rw [hnums, hids, h.paired]
    seeds := by
      intro s hs
      rw [hsampling] at hs
      exact h.seeds s hs
    arrays := by
      intro hlen hreqs
      rw [hsampling]
      exact ⟨(harrays hlen hreqs).2, (h.arrays (harrays hlen hreqs).1 (hne hreqs)).2⟩ }

theorem Sound.weaken (h : Sound det flag info) {flag' : Bool} (hflag : flag' = true → flag = true) :
    Sound det flag' info :=
  { h with lists := fun hflag' => h.lists (hflag hflag') }

/-! `prepare_for_extend` -/

theorem slotsNeeded_eq (info : ScheduleReqsInfo ρ) :
    info.slotsNeeded = (info.reqs.filter (fun r => !r.reqPoolIdx.isSome)).length := by
  have h := List.length_eq_length_filter_add (l := info.reqs) (fun r => r.reqPoolIdx.isSome)
  unfold slotsNeeded
  omega

end ScheduleReqsInfo

theorem assignSlots_forall₂ (reqs : List (BatchReq ρ)) (slots : List Nat) :
    List.Forall₂ (fun r r' => ∃ idx, r' = { r with reqPoolIdx := idx }) reqs
      (assignSlots reqs slots) := by
  fun_induction assignSlots reqs slots with
  | case1 => exact .nil
  | case2 req reqs slot slots hreq ih => exact .cons ⟨_, rfl⟩ ih
  | case3 req reqs slots hreq ih => exact .cons ⟨_, rfl⟩ ih

theorem assignSlots_isSome (reqs : List (BatchReq ρ)) (slots : List Nat)
    (henough : (reqs.filter (fun r => !r.reqPoolIdx.isSome)).length ≤ slots.length) :
    ∀ r ∈ assignSlots reqs slots, r.reqPoolIdx.isSome := by
  fun_induction assignSlots reqs slots with
  | case1 => simp
  | case2 req reqs slot slots hreq ih =>
    simp only [hreq, List.length_cons, Option.isSome_none, Bool.not_false, List.filter_cons_of_pos,
      Nat.add_le_add_iff_right] at henough
    simpa using ih henough
  | case3 req reqs slots hreq ih =>
    cases hidx : req.reqPoolIdx with
    | none =>
      cases slots with
      | nil => simp [hidx] at henough
      | cons slot slots => exact (hreq slot slots hidx rfl).elim
    | some idx =>
      simp only [hidx, Option.isSome_some, Bool.not_true, Bool.false_eq_true, not_false_eq_true,
        List.filter_cons_of_neg] at henough
      simpa [hidx] using ih henough

theorem allocReqSlots_eq {freeSlots freeSlots' : List Nat} {info : ScheduleReqsInfo ρ}
    {reqs : List (BatchReq ρ)} (hok : allocReqSlots freeSlots info.reqs = .ok (reqs, freeSlots')) :
    info.slotsNeeded ≤ freeSlots.length ∧
      reqs = assignSlots info.reqs (freeSlots.take info.slotsNeeded) ∧
      freeSlots' = freeSlots.drop info.slotsNeeded := by
  unfold allocReqSlots at hok
  dsimp only at hok
  split at hok
  · cases hok
  · split at hok
    · cases hok
    · split at hok
      · cases hok
      · next henough =>
        cases hok
        exact ⟨Nat.le_of_not_lt henough, rfl, rfl⟩

namespace ScheduleReqsInfo

variable {det flag : Bool} {info info' : ScheduleReqsInfo ρ}

theorem Sound.prepareForExtend {freeSlots freeSlots' : List Nat} {kvServed : Bool}
    (h : Sound det flag info)
    (hok : info.prepareForExtend flag det kvServed freeSlots = .ok (info', freeSlots')) :
    Sound det flag info' := by
  unfold ScheduleReqsInfo.prepareForExtend at hok
  split at hok
  · next hempty =>
    cases hok
    have hnil : info.reqs = [] := List.isEmpty_iff.mp hempty
    exact { h with
      seqLens := .absent _
      seqLensSum := rfl
      lists := fun _ hlen => nomatch hlen
      arrays := fun hlen => nomatch hlen }
  · next hempty =>
    obtain ⟨⟨reqs, rest⟩, halloc, hok⟩ := bind_eq_ok.mp hok
    obtain ⟨henough, rfl, -⟩ := allocReqSlots_eq halloc
    dsimp only at hok
    split at hok
    · cases hok
    · cases hok
      have hslots := assignSlots_forall₂ info.reqs (freeSlots.take info.slotsNeeded)
      have hsome := assignSlots_isSome info.reqs (freeSlots.take info.slotsNeeded)
        (by rw [List.length_take, Nat.min_eq_left henough, slotsNeeded_eq])
      have hrow : List.Forall₂ (fun r r' : BatchReq ρ => r.SameWishes r' ∧
          r'.nextToken = r.nextToken) info.reqs
          ((assignSlots info.reqs (freeSlots.take info.slotsNeeded)).map
            (fun r => { r with kvCommittedLen := r.fillLen })) := by
        rw [List.forall₂_map_right_iff]
        apply hslots.imp
        intro r r' hr
        obtain ⟨idx, rfl⟩ := hr
        exact ⟨⟨rfl, rfl, rfl, rfl⟩, rfl⟩
      exact {
        reqPoolIndices := by
          apply Beside.of_filterMap
          intro r hr
          obtain ⟨r', hr', rfl⟩ := List.mem_map.mp hr
          exact hsome r' hr'
        seqLens := by
          apply Beside.of_map
          intro r hr
          obtain ⟨r', -, rfl⟩ := List.mem_map.mp hr
          rfl
        outputIds := by
          apply h.outputIds.rows (hrow.imp _)
          intro r r' hr x hx
          rw [hr.2, hx]
        topLogprobsNums := by
          cases flag with
          | true => exact .of_map (fun _ _ => .inl rfl)
          | false => exact h.topLogprobsNums.rows (hrow.imp (fun _ _ hr => hr.1.ownsNum))
        tokenIdsLogprobs := by
          cases flag with
          | true => exact .of_map (fun _ _ => .inl rfl)
          | false => exact h.tokenIdsLogprobs.rows (hrow.imp (fun _ _ hr => hr.1.ownsTokenIds))
        samplingInfo := by
          intro s hs
          cases hs
          exact SamplingBatchInfo.aligned_fromScheduleBatch det _
        seqLensSum := rfl
        lists := by
          intro hflag _ _
          simp [hflag]
        paired := by
          cases flag with
          | true => rfl
          | false => exact h.paired
        seeds := by
          intro s hs
          cases hs
          cases det with
          | true => rfl
          | false => rfl
        arrays := fun _ _ => ⟨rfl, rfl⟩ }

/-! A forward pass, its results and `prepare_for_decode` -/

theorem Sound.extractOutputIds (h : Sound det flag info) {nextTokenIds : List Int}
    (hlen : info.reqs.length ≤ nextTokenIds.length) :
    Sound det flag (info.extractOutputIds nextTokenIds) := by
  have hrow : List.Forall₂ (fun r r' : BatchReq ρ => ∃ t, r' = { r with nextToken := t }) info.reqs
      (info.extractOutputIds nextTokenIds).reqs := by
    rw [List.forall₂_iff_get]
    refine ⟨by simp [ScheduleReqsInfo.extractOutputIds], ?_⟩
    intro i hi hi'
    simp [ScheduleReqsInfo.extractOutputIds]
  apply h.keep
  · apply hrow.imp
    intro r r' hr
    obtain ⟨t, rfl⟩ := hr
    exact ⟨rfl, rfl, rfl, rfl⟩
  · apply h.reqPoolIndices.rows (hrow.imp _)
    intro r r' hr x hx
    obtain ⟨t, rfl⟩ := hr
    exact hx
  · apply h.seqLens.rows (hrow.imp _)
    intro r r' hr x hx
    obtain ⟨t, rfl⟩ := hr
    exact hx
  · -- every request has its own place in the array of sampled tokens
    unfold ScheduleReqsInfo.extractOutputIds
    rw [Beside.some_iff, List.forall₂_iff_get]
    refine ⟨by simp [hlen], ?_⟩
    intro i hi hi'
    simp only [List.length_mapIdx] at hi
    have hi'' : i < nextTokenIds.length := Nat.lt_of_lt_of_le hi hlen
    simp [hi'']
  · exact h.seqLensSum
  · rfl
  · rfl
  · rfl
  · intro hlens hne
    have hne' : info.reqs ≠ [] := by
      intro hnil
      simp [ScheduleReqsInfo.extractOutputIds, hnil] at hne
    exact ⟨hlens, (h.arrays hlens hne').1⟩

theorem Sound.finish (h : Sound det flag info) (stops : BatchReq ρ → Bool) :
    Sound det flag { info with reqs := info.reqs.map (fun r =>
      { r with finished := r.finished || stops r }) } := by
  apply h.keep
  · rw [List.forall₂_map_right_iff, List.forall₂_same]
    intro r _
    exact ⟨rfl, rfl, rfl, rfl⟩
  · exact h.reqPoolIndices.map_rows (fun _ _ hx => hx)
  · exact h.seqLens.map_rows (fun _ _ hx => hx)
  · exact h.outputIds.map_rows (fun _ _ hx => hx)
  · exact h.seqLensSum
  · rfl
  · rfl
  · rfl
  · intro hlens hne
    have hne' : info.reqs ≠ [] := by simpa using hne
    exact ⟨hlens, (h.arrays hlens hne').1⟩

theorem prepareForDecode_total (h : Sound det flag info) {kvServed : Bool}
    (hready : info.reqs ≠ [] → info.seqLens.isSome ∧ kvServed = true) :
    ∃ info', info.prepareForDecode kvServed = .ok info' := by
  unfold ScheduleReqsInfo.prepareForDecode
  split
  · exact ⟨_, rfl⟩
  · next hempty =>
    have hne : info.reqs ≠ [] := fun h => hempty (List.isEmpty_iff.mpr h)
    obtain ⟨hlens, hserved⟩ := hready hne
    obtain ⟨lens, hlens'⟩ := Option.isSome_iff_exists.mp hlens
    obtain ⟨s, hs⟩ := Option.isSome_iff_exists.mp (h.arrays hlens hne).2
    rw [hs, hlens', hserved]
    exact ⟨_, rfl⟩

theorem Sound.prepareForDecode (h : Sound det flag info) {kvServed : Bool}
    (hok : info.prepareForDecode kvServed = .ok info') : Sound det flag info' := by
  unfold ScheduleReqsInfo.prepareForDecode at hok
  split at hok
  · next hempty =>
    cases hok
    exact { h with
      seqLens := .absent _
      outputIds := .absent _
      seqLensSum := rfl
      lists := fun _ hlen => nomatch hlen
      arrays := fun hlen => nomatch hlen }
  · next hempty =>
    split at hok
    · next s lens hs hlens =>
      split at hok
      · cases hok
        have hbeside : Beside (fun r x => r.kvCommittedLen = x) info.reqs (some lens) := by
          rw [← hlens]
          exact h.seqLens
        apply h.keep
        · rw [List.forall₂_map_right_iff, List.forall₂_same]
          intro r _
          exact ⟨rfl, rfl, rfl, rfl⟩
        · exact h.reqPoolIndices.map_rows (fun _ _ hx => hx)
        · apply hbeside.map
          intro r x hx
          simp [hx]
        · exact .absent _
        · have hsum := h.seqLensSum
          rw [hlens] at hsum
          simp only [hsum, Option.getD_some, ← hbeside.length_eq]
          clear hsum hbeside hlens
          induction lens with
          | nil => rfl
          | cons x lens ih =>
            simp only [List.sum_cons, List.map_cons, List.length_cons]
            omega
        · rfl
        · rfl
        · rfl
        · intro _ hne
          have hne' : info.reqs ≠ [] := by simpa using hne
          have hsome : info.seqLens.isSome := by rw [hlens]; rfl
          exact ⟨hsome, (h.arrays hsome hne').1⟩
      · cases hok
    · cases hok

/-! `filter_batch` -/

end ScheduleReqsInfo

theorem takeIndices_beside {α β : Type} {R : α → β → Prop} {rows : List α} {c : List β}
    (h : Beside R rows (some c)) {keepIndices : List Nat}
    (hkeep : ∀ i ∈ keepIndices, i < rows.length) :
    takeIndices c keepIndices = .ok (picked c keepIndices) := by
  unfold takeIndices
  rw [gather_of_lt]
  · rfl
  · intro i hi
    rw [h.length_eq]
    exact hkeep i hi

theorem takeIndices?_beside {α β : Type} {R : α → β → Prop} {rows : List α}
    {col : Option (List β)} (h : Beside R rows col) {keepIndices : List Nat}
    (hkeep : ∀ i ∈ keepIndices, i < rows.length) :
    takeIndices? col keepIndices = .ok (col.map (picked · keepIndices)) := by
  cases col with
  | none => rfl
  | some c =>
    unfold takeIndices?
    rw [Option.elim_some, takeIndices_beside h hkeep]
    rfl

theorem SamplingBatchInfo.Aligned.filterBatch {reqs : List (BatchReq ρ)}
    {s : SamplingBatchInfo ρ} (hs : s.Aligned reqs) {keepIndices : List Nat}
    (hkeep : ∀ i ∈ keepIndices, i < reqs.length) :
    ∃ s', s.filterBatch keepIndices = .ok s' ∧ s'.Aligned (picked reqs keepIndices) ∧
      s'.samplingSeeds.isSome = s.samplingSeeds.isSome := by
  unfold SamplingBatchInfo.filterBatch
  rw [takeIndices_beside hs.temperatures hkeep, takeIndices_beside hs.topPs hkeep,
    takeIndices_beside hs.topKs hkeep, takeIndices_beside hs.minPs hkeep,
    takeIndices?_beside hs.samplingSeeds hkeep]
  refine ⟨_, rfl, ?_, Option.isSome_map⟩
  exact {
    temperatures := hs.temperatures.picked keepIndices
    topPs := hs.topPs.picked keepIndices
    topKs := hs.topKs.picked keepIndices
    minPs := hs.minPs.picked keepIndices
    samplingSeeds := hs.samplingSeeds.picked? keepIndices }

namespace ScheduleReqsInfo

variable {det flag : Bool} {info info' : ScheduleReqsInfo ρ}

theorem Sound.takeTokenIds (h : Sound det flag info) {keepIndices : List Nat}
    (hkeep : ∀ i ∈ keepIndices, i < info.reqs.length) :
    ScheduleReqsInfo.takeTokenIds keepIndices info.topLogprobsNums info.tokenIdsLogprobs =
      .ok (info.tokenIdsLogprobs.map (picked · keepIndices)) := by
  have hpaired := h.paired
  have hbeside := h.tokenIdsLogprobs
  cases hnums : info.topLogprobsNums with
  | none =>
    rw [hnums, Option.isSome_none, eq_comm, Option.isSome_eq_false_iff,
      Option.isNone_iff_eq_none] at hpaired
    rw [hpaired]
    rfl
  | some nums =>
    rw [hnums, Option.isSome_some, eq_comm] at hpaired
    obtain ⟨ids, hids⟩ := Option.isSome_iff_exists.mp hpaired
    rw [hids] at hbeside ⊢
    unfold ScheduleReqsInfo.takeTokenIds
    dsimp only
    rw [takeIndices_beside hbeside hkeep]
    rfl

theorem Sound.takeSampling (h : Sound det flag info) {keepIndices : List Nat}
    (hkeep : ∀ i ∈ keepIndices, i < info.reqs.length) :
    ∃ sampling, info.samplingInfo.elim (pure none)
        (fun s => some <$> s.filterBatch keepIndices) = .ok sampling ∧
      (∀ s, sampling = some s → s.Aligned (picked info.reqs keepIndices) ∧
        s.samplingSeeds.isSome = det) ∧
      sampling.isSome = info.samplingInfo.isSome := by
  cases hs : info.samplingInfo with
  | none => exact ⟨none, rfl, by simp, rfl⟩
  | some s =>
    obtain ⟨s', hok, haligned, hseeds⟩ := (h.samplingInfo s hs).filterBatch hkeep
    refine ⟨some s', ?_, ?_, rfl⟩
    · rw [Option.elim_some, hok]
      rfl
    · intro t ht
      cases ht
      exact ⟨haligned, hseeds.trans (h.seeds s hs)⟩

theorem Sound.filterBatch (h : Sound det flag info) {keepIndices : List Nat}
    (hkeep : ∀ i ∈ keepIndices, i < info.reqs.length) :
    ∃ info', info.filterBatch keepIndices = .ok info' ∧ Sound det flag info' := by
  unfold ScheduleReqsInfo.filterBatch
  split
  · exact ⟨info, rfl, h⟩
  · next hempty =>
    have hne : info.reqs ≠ [] := fun hnil => hempty (List.isEmpty_iff.mpr hnil)
    split
    · exact ⟨cleared, rfl, sound_fresh []⟩
    · next hsome =>
      split
      · exact ⟨info, rfl, h⟩
      · have hreqs : takeIndices info.reqs keepIndices = .ok (picked info.reqs keepIndices) := by
          unfold takeIndices
          rw [gather_of_lt hkeep]
          rfl
        obtain ⟨sampling, hsampling, haligned, hpresent⟩ := h.takeSampling hkeep
        rw [hreqs, takeIndices?_beside h.reqPoolIndices hkeep, takeIndices?_beside h.seqLens hkeep,
          takeIndices?_beside h.outputIds hkeep, takeIndices?_beside h.topLogprobsNums hkeep,
          h.takeTokenIds hkeep, hsampling]
        refine ⟨_, rfl, ?_⟩
        exact {
          reqPoolIndices := h.reqPoolIndices.picked? keepIndices
          seqLens := h.seqLens.picked? keepIndices
          outputIds := h.outputIds.picked? keepIndices
          topLogprobsNums := h.topLogprobsNums.picked? keepIndices
          tokenIdsLogprobs := h.tokenIdsLogprobs.picked? keepIndices
          samplingInfo := fun s hs => (haligned s hs).1
          seqLensSum := by
            cases info.seqLens with
            | none => rfl
            | some lens => rfl
          lists := by
            intro hflag hlens _
            simp only [Option.isSome_map] at hlens ⊢
            exact h.lists hflag hlens hne
          paired := by
            simp only [Option.isSome_map]
            exact h.paired
          seeds := fun s hs => (haligned s hs).2
          arrays := by
            intro hlens _
            simp only [Option.isSome_map] at hlens ⊢
            rw [hpresent]
            exact h.arrays hlens hne }

/-! `merge_batch` -/

end ScheduleReqsInfo

theorem SamplingBatchInfo.Aligned.nonempty {reqs : List (BatchReq ρ)} {s : SamplingBatchInfo ρ}
    (hs : s.Aligned reqs) (hne : reqs ≠ []) : s.temperatures.isEmpty = false := by
  rw [List.isEmpty_eq_false_iff]
  intro hnil
  have hlen := hs.temperatures.length_eq
  rw [hnil, List.length_nil, eq_comm, List.length_eq_zero_iff] at hlen
  exact hne hlen

theorem SamplingBatchInfo.Aligned.mergeBatch {reqs more : List (BatchReq ρ)}
    {s t : SamplingBatchInfo ρ} (hs : s.Aligned reqs) (ht : t.Aligned more)
    (hseeds : s.samplingSeeds.isSome = t.samplingSeeds.isSome) :
    (s.mergeBatch t).Aligned (reqs ++ more) ∧
      (s.mergeBatch t).samplingSeeds.isSome = s.samplingSeeds.isSome := by
  have hs' := hs.samplingSeeds
  have ht' := ht.samplingSeeds
  cases hsSeeds : s.samplingSeeds with
  | none =>
    have hmerged : (s.mergeBatch t).samplingSeeds = none := by
      simp [SamplingBatchInfo.mergeBatch, hsSeeds]
    refine ⟨⟨hs.temperatures.append ht.temperatures, hs.topPs.append ht.topPs,
      hs.topKs.append ht.topKs, hs.minPs.append ht.minPs, ?_⟩, by rw [hmerged]⟩
    rw [hmerged]
    exact .absent _
  | some seeds =>
    rw [hsSeeds, Option.isSome_some, eq_comm] at hseeds
    obtain ⟨seeds', htSeeds⟩ := Option.isSome_iff_exists.mp hseeds
    have hmerged : (s.mergeBatch t).samplingSeeds = some (seeds ++ seeds') := by
      simp [SamplingBatchInfo.mergeBatch, hsSeeds, htSeeds]
    refine ⟨⟨hs.temperatures.append ht.temperatures, hs.topPs.append ht.topPs,
      hs.topKs.append ht.topKs, hs.minPs.append ht.minPs, ?_⟩, by rw [hmerged]; rfl⟩
    rw [hmerged]
    rw [hsSeeds] at hs'
    rw [htSeeds] at ht'
    exact hs'.append ht'

namespace ScheduleReqsInfo

variable {det selfReturns otherReturns : Bool} {rank other : ScheduleReqsInfo ρ}

/-- The logprob lists of a rank with requests in both batches. -/
theorem mergeLogprobs_sound (h : Sound det selfReturns rank) (ho : Sound det otherReturns other)
    (hfits : MergeFits selfReturns otherReturns rank other) (hne : rank.reqs ≠ [])
    (hne' : other.reqs ≠ []) (hs : selfReturns = false → ∀ r ∈ rank.reqs, r.returnLogprob = false)
    (hos : otherReturns = false → ∀ r ∈ other.reqs, r.returnLogprob = false) :
    ∃ nums ids, mergeLogprobs selfReturns otherReturns rank other = .ok (nums, ids) ∧
      Beside BatchReq.OwnsNum (rank.reqs ++ other.reqs) nums ∧
      Beside BatchReq.OwnsTokenIds (rank.reqs ++ other.reqs) ids ∧
      nums.isSome = ids.isSome ∧ ((selfReturns || otherReturns) = true → nums.isSome) := by
  obtain ⟨hlens, hlens'⟩ := hfits.prepared hne hne'
  have hnums := h.topLogprobsNums
  have hids := h.tokenIdsLogprobs
  have hnums' := ho.topLogprobsNums
  have hids' := ho.tokenIdsLogprobs
  have hzeros : selfReturns = false → Beside BatchReq.OwnsNum rank.reqs
      (some (List.replicate rank.reqs.length 0)) := fun hf =>
    .replicate (fun r hr => .inr ⟨hs hf r hr, rfl⟩)
  have hnones : selfReturns = false → Beside BatchReq.OwnsTokenIds rank.reqs
      (some (List.replicate rank.reqs.length none)) := fun hf =>
    .replicate (fun r hr => .inr ⟨hs hf r hr, rfl⟩)
  have hzeros' : otherReturns = false → Beside BatchReq.OwnsNum other.reqs
      (some (List.replicate other.reqs.length 0)) := fun hf =>
    .replicate (fun r hr => .inr ⟨hos hf r hr, rfl⟩)
  have hnones' : otherReturns = false → Beside BatchReq.OwnsTokenIds other.reqs
      (some (List.replicate other.reqs.length none)) := fun hf =>
    .replicate (fun r hr => .inr ⟨hos hf r hr, rfl⟩)
  cases selfReturns with
  | true =>
    obtain ⟨hn, hi⟩ := h.lists rfl hlens hne
    obtain ⟨nums, hnum⟩ := Option.isSome_iff_exists.mp hn
    obtain ⟨ids, hid⟩ := Option.isSome_iff_exists.mp hi
    rw [hnum] at hnums
    rw [hid] at hids
    cases otherReturns with
    | true =>
      obtain ⟨hn', hi'⟩ := ho.lists rfl hlens' hne'
      obtain ⟨nums', hnum'⟩ := Option.isSome_iff_exists.mp hn'
      obtain ⟨ids', hid'⟩ := Option.isSome_iff_exists.mp hi'
      rw [hnum'] at hnums'
      rw [hid'] at hids'
      exact ⟨some (nums ++ nums'), some (ids ++ ids'),
        by simp [mergeLogprobs, hnum, hid, hnum', hid'], hnums.append hnums', hids.append hids',
        rfl, fun _ => rfl⟩
    | false =>
      exact ⟨some (nums ++ List.replicate other.reqs.length 0),
        some (ids ++ List.replicate other.reqs.length none),
        by simp [mergeLogprobs, hnum, hid], hnums.append (hzeros' rfl), hids.append (hnones' rfl),
        rfl, fun _ => rfl⟩
  | false =>
    cases otherReturns with
    | true =>
      obtain ⟨hn', hi'⟩ := ho.lists rfl hlens' hne'
      obtain ⟨nums', hnum'⟩ := Option.isSome_iff_exists.mp hn'
      obtain ⟨ids', hid'⟩ := Option.isSome_iff_exists.mp hi'
      rw [hnum'] at hnums'
      rw [hid'] at hids'
      exact ⟨some (List.replicate rank.reqs.length 0 ++ nums'),
        some (List.replicate rank.reqs.length none ++ ids'),
        by simp [mergeLogprobs, hnum', hid'], (hzeros rfl).append hnums', (hnones rfl).append hids',
        rfl, fun _ => rfl⟩
    | false =>
      have hnone : rank.topLogprobsNums = none := hfits.leftOver hne hne' rfl rfl
      have hpaired := h.paired
      rw [hnone, Option.isSome_none, eq_comm, Option.isSome_eq_false_iff,
        Option.isNone_iff_eq_none] at hpaired
      exact ⟨none, none, by simp [mergeLogprobs, hnone, hpaired], .absent _, .absent _, rfl,
        by simp⟩

theorem beside_mergeOutputIds {rows more : List (BatchReq ρ)} {a b : Option (List Int)}
    (ha : Beside (fun r x => r.nextToken = some x) rows a)
    (hb : Beside (fun r x => r.nextToken = some x) more b) (hboth : a.isSome → b.isSome) :
    Beside (fun r x => r.nextToken = some x) (rows ++ more)
      (mergeOutputIds rows.length more.length a b) := by
  cases a with
  | none => exact .absent _
  | some a =>
    obtain ⟨b, rfl⟩ := Option.isSome_iff_exists.mp (hboth rfl)
    unfold mergeOutputIds
    dsimp only
    rw [← ha.length_eq, ← hb.length_eq, List.take_length, List.take_length]
    exact ha.append hb

/-- Ranks that fit are merged into one that is sound for the flag of the merged
batch. -/
theorem Sound.mergeBatch (h : Sound det selfReturns rank) (ho : Sound det otherReturns other)
    (hfits : MergeFits selfReturns otherReturns rank other)
    (hs : selfReturns = false → ∀ r ∈ rank.reqs, r.returnLogprob = false)
    (hos : otherReturns = false → ∀ r ∈ other.reqs, r.returnLogprob = false) :
    ∃ info, rank.mergeBatch selfReturns otherReturns other = .ok info ∧
      Sound det (selfReturns || otherReturns) info := by
  unfold ScheduleReqsInfo.mergeBatch
  split
  · next hempty =>
    -- the other batch brings no request here, but maybe the flag
    have hnil : other.reqs = [] := List.isEmpty_iff.mp hempty
    refine ⟨rank, rfl, { h with lists := ?_ }⟩
    intro hflag hlens hne
    have hnums : rank.topLogprobsNums.isSome := by
      cases hself : selfReturns with
      | true => exact (h.lists hself hlens hne).1
      | false =>
        rw [hself, Bool.false_or] at hflag
        rcases hfits.onlySelf hne hnil hlens hflag with hr | hn
        · rw [hself] at hr
          cases hr
        · exact hn
    exact ⟨hnums, h.paired ▸ hnums⟩
  · next hempty =>
    have hne' : other.reqs ≠ [] := fun hnil => hempty (List.isEmpty_iff.mpr hnil)
    split
    · next hself =>
      have hnil : rank.reqs = [] := List.isEmpty_iff.mp hself
      refine ⟨_, rfl, { ho with lists := ?_ }⟩
      intro hflag hlens _
      have hnums : other.topLogprobsNums.isSome := by
        cases hother : otherReturns with
        | true => exact (ho.lists hother hlens hne').1
        | false =>
          rw [hother, Bool.or_false] at hflag
          rcases hfits.onlyOther hnil hne' hlens hflag with hr | hn
          · rw [hother] at hr
            cases hr
          · exact hn
      exact ⟨hnums, ho.paired ▸ hnums⟩
    · next hself =>
      have hne : rank.reqs ≠ [] := fun hnil => hself (List.isEmpty_iff.mpr hnil)
      obtain ⟨hlens, hlens'⟩ := hfits.prepared hne hne'
      obtain ⟨hpool, hsampling⟩ := h.arrays hlens hne
      obtain ⟨hpool', hsampling'⟩ := ho.arrays hlens' hne'
      obtain ⟨lens, hlen⟩ := Option.isSome_iff_exists.mp hlens
      obtain ⟨lens', hlen'⟩ := Option.isSome_iff_exists.mp hlens'
      obtain ⟨pool, hpool⟩ := Option.isSome_iff_exists.mp hpool
      obtain ⟨pool', hpool'⟩ := Option.isSome_iff_exists.mp hpool'
      obtain ⟨s, hs1⟩ := Option.isSome_iff_exists.mp hsampling
      obtain ⟨s', hs2⟩ := Option.isSome_iff_exists.mp hsampling'
      obtain ⟨nums, ids, hlists, hnums, hids, hpaired, hpresent⟩ :=
        mergeLogprobs_sound h ho hfits hne hne' hs hos
      have hbLens := h.seqLens
      have hbLens' := ho.seqLens
      have hbPool := h.reqPoolIndices
      have hbPool' := ho.reqPoolIndices
      rw [hlen] at hbLens
      rw [hlen'] at hbLens'
      rw [hpool] at hbPool
      rw [hpool'] at hbPool'
      have haligned := h.samplingInfo s hs1
      have haligned' := ho.samplingInfo s' hs2
      obtain ⟨hmerged, hseeds⟩ := haligned.mergeBatch haligned'
        ((h.seeds s hs1).trans (ho.seeds s' hs2).symm)
      have htemps : (s.temperatures.isEmpty || s'.temperatures.isEmpty) = false := by
        rw [haligned.nonempty hne, haligned'.nonempty hne', Bool.or_false]
      have hout : (lens ++ lens').length - lens'.length = rank.reqs.length := by
        rw [List.length_append, Nat.add_sub_cancel, hbLens.length_eq]
      rw [hs1, hs2, hpool, hpool', hlen, hlen', hlists]
      refine ⟨_, rfl, ?_⟩
      exact {
        reqPoolIndices := hbPool.append hbPool'
        seqLens := hbLens.append hbLens'
        outputIds := by
          simp only [Option.getD_some]
          rw [hout, hbLens'.length_eq]
          exact beside_mergeOutputIds h.outputIds ho.outputIds (hfits.outputIds hne hne')
        topLogprobsNums := hnums
        tokenIdsLogprobs := hids
        samplingInfo := by
          intro t ht
          simp only [htemps, Bool.false_eq_true, if_false, Option.some.injEq] at ht
          rw [← ht]
          exact hmerged
        seqLensSum := by
          simp [h.seqLensSum, ho.seqLensSum, hlen, hlen']
        lists := fun hflag _ _ => ⟨hpresent hflag, hpaired ▸ hpresent hflag⟩
        paired := hpaired
        seeds := by
          intro t ht
          simp only [htemps, Bool.false_eq_true, if_false, Option.some.injEq] at ht
          rw [← ht, hseeds]
          exact h.seeds s hs1
        arrays := by
          intro _ _
          simp [htemps] }

end ScheduleReqsInfo

namespace ScheduleBatch

variable {det : Bool} {b b' other : ScheduleBatch ρ}

/-- Every rank of the batch is sound for the flag of the batch. -/
def RowsSound (enableDeterministic : Bool) (b : ScheduleBatch ρ) : Prop :=
  ∀ info ∈ b.reqsInfo, info.Sound enableDeterministic b.returnLogprob

theorem forRanksExtend_sound {flag : Bool} {mem : ExtendMemory}
    {infos infos' : List (ScheduleReqsInfo ρ)} {rank : Nat} {freeSlots freeSlots' : List Nat}
    (h : ∀ info ∈ infos, info.Sound mem.enableDeterministic flag)
    (hok : forRanksExtend flag mem rank freeSlots infos = .ok (infos', freeSlots')) :
    ∀ info ∈ infos', info.Sound mem.enableDeterministic flag := by
  induction infos generalizing rank freeSlots infos' with
  | nil =>
    cases hok
    simp
  | cons info infos ih =>
    unfold forRanksExtend at hok
    obtain ⟨⟨head, free⟩, hhead, hrest⟩ := bind_eq_ok.mp hok
    obtain ⟨⟨tail, free'⟩, htail, heq⟩ := bind_eq_ok.mp hrest
    cases heq
    simp only [List.forall_mem_cons] at h ⊢
    exact ⟨h.1.prepareForExtend hhead, ih h.2 htail⟩

theorem mergeRanks_spec {selfReturns otherReturns : Bool} {Q : ScheduleReqsInfo ρ → Prop}
    {selfs others : List (ScheduleReqsInfo ρ)}
    (h : ∀ (i : Nat) self other, selfs[i]? = some self → others[i]? = some other →
      ∃ info, self.mergeBatch selfReturns otherReturns other = .ok info ∧ Q info) :
    ∃ infos, mergeRanks selfReturns otherReturns selfs others = .ok infos ∧
      ∀ info ∈ infos, Q info := by
  induction selfs generalizing others with
  | nil => exact ⟨[], rfl, by simp⟩
  | cons self selfs ih =>
    cases others with
    | nil => exact ⟨[], rfl, by simp⟩
    | cons other others =>
      obtain ⟨head, hhead, hQ⟩ := h 0 self other rfl rfl
      obtain ⟨tail, htail, hQs⟩ := ih (fun i self other hi hi' => h (i + 1) self other hi hi')
      refine ⟨head :: tail, ?_, ?_⟩
      · unfold mergeRanks
        rw [bind_eq_ok]
        refine ⟨head, hhead, ?_⟩
        rw [bind_eq_ok]
        exact ⟨tail, htail, rfl⟩
      · simp only [List.forall_mem_cons]
        exact ⟨hQ, hQs⟩

theorem RowsSound.initNew {reqs : List (List (BatchReq ρ))} {dpSize : Nat}
    (hok : ScheduleBatch.initNew reqs dpSize = .ok b) : RowsSound det b := by
  unfold ScheduleBatch.initNew at hok
  split at hok
  · cases hok
  · cases hok
    intro info hinfo
    obtain ⟨rs, -, rfl⟩ := List.mem_map.mp hinfo
    exact ScheduleReqsInfo.sound_fresh rs

theorem RowsSound.extend (h : RowsSound det b) {mem : ExtendMemory} {freeSlots : List Nat}
    (hcare : (BatchCare.rows det).extend mem b)
    (hok : b.prepareForExtend mem = .ok (b', freeSlots)) : RowsSound det b' := by
  unfold ScheduleBatch.prepareForExtend at hok
  obtain ⟨⟨infos, free⟩, hinfos, heq⟩ := bind_eq_ok.mp hok
  cases heq
  obtain ⟨rfl, -, -⟩ := hcare
  exact forRanksExtend_sound h hinfos

theorem RowsSound.forward (h : RowsSound det b) {nextTokenIdsFlat : List Int} {perDpBsSize : Nat}
    (hcare : (BatchCare.rows det).forward nextTokenIdsFlat perDpBsSize b) :
    RowsSound det (b.extractDpOutputIds nextTokenIdsFlat perDpBsSize) := by
  obtain ⟨hlen, hfit⟩ := hcare
  intro info' hinfo'
  unfold ScheduleBatch.extractDpOutputIds at hinfo'
  rw [List.mem_mapIdx] at hinfo'
  obtain ⟨rank, hrank, rfl⟩ := hinfo'
  have hmem : b.reqsInfo[rank] ∈ b.reqsInfo := List.getElem_mem hrank
  apply (h _ hmem).extractOutputIds
  -- the places of this rank lie inside the array
  have hplaces : rank * perDpBsSize + perDpBsSize ≤ nextTokenIdsFlat.length := by
    rw [hlen, ← Nat.succ_mul]
    exact Nat.mul_le_mul_right _ hrank
  rw [List.length_take, List.length_drop, Nat.min_eq_left (by omega)]
  exact hfit _ hmem

theorem RowsSound.finish (h : RowsSound det b) (stops : BatchReq ρ → Bool) :
    RowsSound det (b.finishReqs stops) := by
  intro info' hinfo'
  obtain ⟨info, hinfo, rfl⟩ := List.mem_map.mp hinfo'
  exact (h info hinfo).finish stops

theorem RowsSound.decode (h : RowsSound det b) {kvServed : Nat → Bool}
    (hcare : (BatchCare.rows det).decode kvServed b) :
    ∃ b', b.prepareForDecode kvServed = .ok b' ∧ RowsSound det b' := by
  have hrank : ∀ (rank : Nat) info, b.reqsInfo[rank]? = some info → ∃ info',
      info.prepareForDecode (kvServed (0 + rank)) = .ok info' ∧
        info'.Sound det b.returnLogprob := by
    intro rank info hinfo
    have hsound := h info (List.mem_of_getElem? hinfo)
    rw [Nat.zero_add]
    obtain ⟨info', hok⟩ := ScheduleReqsInfo.prepareForDecode_total hsound (hcare rank info hinfo)
    exact ⟨info', hok, hsound.prepareForDecode hok⟩
  obtain ⟨infos, hok, hsound⟩ :=
    forRanks_spec (f := fun rank (info : ScheduleReqsInfo ρ) =>
      info.prepareForDecode (kvServed rank)) hrank
  refine ⟨{ b with reqsInfo := infos }, ?_, hsound⟩
  unfold ScheduleBatch.prepareForDecode
  rw [bind_eq_ok]
  exact ⟨infos, hok, rfl⟩

theorem keptIndices_lt {chunkedReqToExclude : Nat → Option Nat}
    {keepIndices : Option (Nat → Option (List Nat))}
    (hcare : (BatchCare.rows det).filter chunkedReqToExclude keepIndices b) {rank : Nat}
    {info : ScheduleReqsInfo ρ} (hinfo : b.reqsInfo[rank]? = some info) :
    ∀ i ∈ keptIndices chunkedReqToExclude keepIndices rank info, i < info.reqs.length := by
  intro i hi
  cases keepIndices with
  | some keep => exact hcare keep rfl rank info hinfo i hi
  | none =>
    have hrange := (List.mem_filter.mp hi).1
    exact List.mem_range.mp hrange

theorem RowsSound.filter (h : RowsSound det b) (hflags : Disjunctions b)
    {chunkedReqToExclude : Nat → Option Nat} {keepIndices : Option (Nat → Option (List Nat))}
    (hcare : (BatchCare.rows det).filter chunkedReqToExclude keepIndices b) :
    ∃ b', b.filterBatch chunkedReqToExclude keepIndices = .ok b' ∧ RowsSound det b' := by
  have hrank : ∀ (rank : Nat) info, b.reqsInfo[rank]? = some info → ∃ info',
      info.filterBatch (keptIndices chunkedReqToExclude keepIndices (0 + rank) info) = .ok info' ∧
        info'.Sound det b.returnLogprob := by
    intro rank info hinfo
    rw [Nat.zero_add]
    exact (h info (List.mem_of_getElem? hinfo)).filterBatch (keptIndices_lt hcare hinfo)
  obtain ⟨infos, hok, hsound⟩ := forRanks_spec (f := fun rank (info : ScheduleReqsInfo ρ) =>
    info.filterBatch (keptIndices chunkedReqToExclude keepIndices rank info)) hrank
  have hfilter : ∃ b', b.filterBatch chunkedReqToExclude keepIndices = .ok b' ∧
      b'.reqsInfo = infos := by
    unfold ScheduleBatch.filterBatch
    exact ⟨_, bind_eq_ok.mpr ⟨infos, hok, rfl⟩, rfl⟩
  obtain ⟨b', hok', rfl⟩ := hfilter
  refine ⟨b', hok', ?_⟩
  intro info hinfo
  apply (hsound info hinfo).weaken
  -- the flag is only raised by a request that was in the batch before
  intro hflag
  rw [(Disjunctions.filter hok').returnLogprob, List.any_eq_true] at hflag
  obtain ⟨r, hr, hreturns⟩ := hflag
  rw [filterBatch_allReqs hok'] at hr
  rw [hflags.returnLogprob, List.any_eq_true]
  exact ⟨r, mem_of_mem_keptReqs hr, hreturns⟩

theorem Disjunctions.no_logprob (h : Disjunctions b) (hflag : b.returnLogprob = false)
    {info : ScheduleReqsInfo ρ} (hinfo : info ∈ b.reqsInfo) :
    ∀ r ∈ info.reqs, r.returnLogprob = false := by
  intro r hr
  rw [h.returnLogprob, List.any_eq_false] at hflag
  have hr' := hflag r (List.mem_flatMap.mpr ⟨info, hinfo, hr⟩)
  simpa using hr'

theorem RowsSound.merge (h : RowsSound det b) (ho : RowsSound det other)
    (hflags : Disjunctions b) (hflags' : Disjunctions other)
    (hcare : (BatchCare.rows det).merge b other) :
    ∃ b', b.mergeBatch other = .ok b' ∧ RowsSound det b' := by
  obtain ⟨hsize, hfits⟩ := hcare
  have hrank : ∀ (rank : Nat) info info', b.reqsInfo[rank]? = some info →
      other.reqsInfo[rank]? = some info' → ∃ merged,
        info.mergeBatch b.returnLogprob other.returnLogprob info' = .ok merged ∧
          merged.Sound det (b.returnLogprob || other.returnLogprob) := by
    intro rank info info' hinfo hinfo'
    have hmem := List.mem_of_getElem? hinfo
    have hmem' := List.mem_of_getElem? hinfo'
    exact (h info hmem).mergeBatch (ho info' hmem') (hfits rank info info' hinfo hinfo')
      (fun hf => hflags.no_logprob hf hmem) (fun hf => hflags'.no_logprob hf hmem')
  obtain ⟨infos, hok, hsound⟩ := mergeRanks_spec hrank
  have hmerge : ∃ b', b.mergeBatch other = .ok b' ∧ b'.reqsInfo = infos := by
    unfold ScheduleBatch.mergeBatch
    rw [if_neg (by simpa using hsize)]
    exact ⟨_, bind_eq_ok.mpr ⟨infos, hok, rfl⟩, rfl⟩
  obtain ⟨b', hok', rfl⟩ := hmerge
  refine ⟨b', hok', ?_⟩
  intro info hinfo
  rw [(mergeBatch_flags hok').returnLogprob]
  exact hsound info hinfo

end ScheduleBatch

end SglJax.Managers
