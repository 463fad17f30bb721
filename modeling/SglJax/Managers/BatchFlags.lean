import SglJax.Managers.ScheduleBatch

/-! The flags of a batch against the settings of its requests. Four flags are
disjunctions and every operation keeps them; `return_output_logprob_only` and
`is_prefill_only` are conjunctions, which `merge_batch` joins with `or` and leaves
alone, and which `filter_batch` does not recompute for the second. -/
namespace SglJax.Managers

open Foundation

variable {ρ : Type}

/-- The settings of a request that a flag of the batch stands for. -/
structure ReqSettings where
  returnLogprob : Bool
  returnHiddenStates : Bool
  stream : Bool
  hasGrammar : Bool
  returnOutputLogprobOnly : Bool
  prefillOnly : Bool

def BatchReq.settings (r : BatchReq ρ) : ReqSettings where
  returnLogprob := r.returnLogprob
  returnHiddenStates := r.returnHiddenStates
  stream := r.stream
  hasGrammar := r.hasGrammar
  returnOutputLogprobOnly := r.returnOutputLogprobOnly
  prefillOnly := r.samplingParams.maxNewTokens == 0

namespace ScheduleBatch

/-- The flags that are disjunctions are those of the requests in the batch. -/
structure Disjunctions (b : ScheduleBatch ρ) : Prop where
  returnLogprob : b.returnLogprob = b.allReqs.any (·.returnLogprob)
  returnHiddenStates : b.returnHiddenStates = b.allReqs.any (·.returnHiddenStates)
  hasStream : b.hasStream = b.allReqs.any (·.stream)
  hasGrammar : b.hasGrammar = b.allReqs.any (·.hasGrammar)

/-- So are the flags that are conjunctions. -/
structure Conjunctions (b : ScheduleBatch ρ) : Prop where
  returnOutputLogprobOnly :
    b.returnOutputLogprobOnly = b.allReqs.all (·.returnOutputLogprobOnly)
  isPrefillOnly : b.isPrefillOnly = b.allReqs.all (·.samplingParams.maxNewTokens == 0)

/-- The flags summarize the batch. -/
structure Summarized (b : ScheduleBatch ρ) : Prop extends Disjunctions b, Conjunctions b

/-- The requests that `filter_batch` leaves in the batch. -/
def keptReqs (chunkedReqToExclude : Nat → Option Nat)
    (keepIndices : Option (Nat → Option (List Nat))) (b : ScheduleBatch ρ) :
    List (BatchReq ρ) :=
  (b.reqsInfo.mapIdx (fun rank info =>
    let keep := keptIndices chunkedReqToExclude keepIndices rank info
    if keep.length = info.reqs.length then info.reqs else picked info.reqs keep)).flatten

/-- Two batches whose flags may be joined: with requests in both, equal
`return_output_logprob_only` and no prefill-only batch extended by one that is not;
with requests in one, no flag of the other that it has not got. -/
structure FlagsAgree (batch other : ScheduleBatch ρ) : Prop where
  both : batch.allReqs ≠ [] → other.allReqs ≠ [] →
    batch.returnOutputLogprobOnly = other.returnOutputLogprobOnly ∧
    (batch.isPrefillOnly = true → other.isPrefillOnly = true)
  fresh : batch.allReqs = [] → other.allReqs ≠ [] →
    (batch.returnOutputLogprobOnly = true → other.returnOutputLogprobOnly = true) ∧
    batch.isPrefillOnly = other.isPrefillOnly
  nothing : batch.allReqs ≠ [] → other.allReqs = [] →
    other.returnOutputLogprobOnly = true → batch.returnOutputLogprobOnly = true

end ScheduleBatch

/-- No filter leaves only prefill-only requests in a batch that had others, and the
flags of merged batches agree. -/
def BatchCare.flags : BatchCare ρ :=
  { BatchCare.free with
    filter := fun chunkedReqToExclude keepIndices b =>
      b.isPrefillOnly = false → b.keptReqs chunkedReqToExclude keepIndices ≠ [] →
        ∃ r ∈ b.keptReqs chunkedReqToExclude keepIndices, r.samplingParams.maxNewTokens ≠ 0
    merge := ScheduleBatch.FlagsAgree }

/-! The requests that an operation leaves in the batch. -/

theorem takeIndices_eq_ok {α : Type} {col c : List α} {keepIndices : List Nat} :
    takeIndices col keepIndices = .ok c ↔ gather col keepIndices = some c := by
  unfold takeIndices
  cases gather col keepIndices with
  | none => simp
  | some c' => simp

theorem assignSlots_settings (reqs : List (BatchReq ρ)) (slots : List Nat) :
    (assignSlots reqs slots).map BatchReq.settings = reqs.map BatchReq.settings := by
  fun_induction assignSlots reqs slots with
  | case1 => rfl
  | case2 req reqs slot slots hreq ih => simp [ih, BatchReq.settings]
  | case3 req reqs slots hreq ih => simp [ih]

namespace ScheduleReqsInfo

theorem prepareForExtend_settings {returnLogprob enableDeterministic kvServed : Bool}
    {freeSlots freeSlots' : List Nat} {info info' : ScheduleReqsInfo ρ}
    (hok : info.prepareForExtend returnLogprob enableDeterministic kvServed freeSlots =
      .ok (info', freeSlots')) :
    info'.reqs.map BatchReq.settings = info.reqs.map BatchReq.settings := by
  unfold prepareForExtend at hok
  split at hok
  · cases hok
    rfl
  · obtain ⟨⟨reqs, rest⟩, halloc, hok⟩ := bind_eq_ok.mp hok
    have hsettings : reqs.map BatchReq.settings = info.reqs.map BatchReq.settings := by
      unfold allocReqSlots at halloc
      dsimp only at halloc
      split at halloc
      · cases halloc
      · split at halloc
        · cases halloc
        · split at halloc
          · cases halloc
          · cases halloc
            exact assignSlots_settings _ _
    dsimp only at hok
    split at hok
    · cases hok
    · cases hok
      rw [← hsettings]
      simp [BatchReq.settings]

theorem prepareForDecode_settings {kvServed : Bool} {info info' : ScheduleReqsInfo ρ}
    (hok : info.prepareForDecode kvServed = .ok info') :
    info'.reqs.map BatchReq.settings = info.reqs.map BatchReq.settings := by
  unfold prepareForDecode at hok
  split at hok
  · cases hok
    rfl
  · split at hok
    · split at hok
      · cases hok
        simp [BatchReq.settings]
      · cases hok
    · cases hok

theorem filterBatch_reqs {keepIndices : List Nat} {info info' : ScheduleReqsInfo ρ}
    (hok : info.filterBatch keepIndices = .ok info') :
    info'.reqs = if keepIndices.length = info.reqs.length then info.reqs
      else picked info.reqs keepIndices := by
  unfold filterBatch at hok
  split at hok
  · next hempty =>
    cases hok
    simp [List.isEmpty_iff.mp hempty]
  · next hempty =>
    split at hok
    · next hnone =>
      cases hok
      have hkeep : keepIndices = [] := List.length_eq_zero_iff.mp hnone
      have hne : (0 : Nat) ≠ info.reqs.length := by
        intro h
        exact hempty (List.isEmpty_iff.mpr (List.length_eq_zero_iff.mp h.symm))
      simp [hkeep, hne, cleared]
    · split at hok
      · next hall =>
        cases hok
        rw [if_pos hall]
      · next hall =>
        rw [if_neg hall]
        obtain ⟨reqs, hreqs, hok⟩ := bind_eq_ok.mp hok
        obtain ⟨poolIndices, -, hok⟩ := bind_eq_ok.mp hok
        obtain ⟨seqLens, -, hok⟩ := bind_eq_ok.mp hok
        obtain ⟨outputIds, -, hok⟩ := bind_eq_ok.mp hok
        obtain ⟨nums, -, hok⟩ := bind_eq_ok.mp hok
        obtain ⟨tokenIds, -, hok⟩ := bind_eq_ok.mp hok
        obtain ⟨sampling, -, hok⟩ := bind_eq_ok.mp hok
        cases hok
        exact picked_of_gather (takeIndices_eq_ok.mp hreqs)

theorem mergeBatch_reqs {selfReturns otherReturns : Bool} {self other info : ScheduleReqsInfo ρ}
    (hok : self.mergeBatch selfReturns otherReturns other = .ok info) :
    info.reqs = self.reqs ++ other.reqs := by
  unfold mergeBatch at hok
  split at hok
  · next h =>
    cases hok
    simp [List.isEmpty_iff.mp h]
  · split at hok
    · next h =>
      cases hok
      simp [List.isEmpty_iff.mp h]
    · obtain ⟨poolIndices, -, hok⟩ := bind_eq_ok.mp hok
      obtain ⟨seqLens, -, hok⟩ := bind_eq_ok.mp hok
      obtain ⟨lists, -, hok⟩ := bind_eq_ok.mp hok
      cases hok
      rfl

end ScheduleReqsInfo

/-! The flags that follow from the settings. -/

namespace ScheduleBatch

theorem flatMap_settings {infos infos' : List (ScheduleReqsInfo ρ)}
    (h : List.Forall₂ (fun info info' : ScheduleReqsInfo ρ =>
      info'.reqs.map BatchReq.settings = info.reqs.map BatchReq.settings) infos infos') :
    (infos'.flatMap (·.reqs)).map BatchReq.settings =
      (infos.flatMap (·.reqs)).map BatchReq.settings := by
  induction h with
  | nil => rfl
  | cons hinfo _ ih => simp only [List.flatMap_cons, List.map_append, hinfo, ih]

/-- The flags of two batches are the same. -/
structure SameFlags (b b' : ScheduleBatch ρ) : Prop where
  returnLogprob : b'.returnLogprob = b.returnLogprob
  returnHiddenStates : b'.returnHiddenStates = b.returnHiddenStates
  hasStream : b'.hasStream = b.hasStream
  hasGrammar : b'.hasGrammar = b.hasGrammar
  returnOutputLogprobOnly : b'.returnOutputLogprobOnly = b.returnOutputLogprobOnly
  isPrefillOnly : b'.isPrefillOnly = b.isPrefillOnly
  settings : b'.allReqs.map BatchReq.settings = b.allReqs.map BatchReq.settings

/-- A flag read from the settings does not see the rest of a request. -/
theorem any_of_settings {rs rs' : List (BatchReq ρ)} {p : ReqSettings → Bool}
    (h : rs'.map BatchReq.settings = rs.map BatchReq.settings) :
    rs'.any (fun r => p r.settings) = rs.any (fun r => p r.settings) := by
  have hmap := congrArg (fun l => l.any p) h
  simpa only [List.any_map, Function.comp_def] using hmap

theorem all_of_settings {rs rs' : List (BatchReq ρ)} {p : ReqSettings → Bool}
    (h : rs'.map BatchReq.settings = rs.map BatchReq.settings) :
    rs'.all (fun r => p r.settings) = rs.all (fun r => p r.settings) := by
  have hmap := congrArg (fun l => l.all p) h
  simpa only [List.all_map, Function.comp_def] using hmap

/-- What holds of a batch between operations: the disjunctions always, the
conjunctions once it has requests. -/
structure FlagsSound (b : ScheduleBatch ρ) : Prop extends Disjunctions b where
  conjunctions : b.allReqs ≠ [] → Conjunctions b

theorem Disjunctions.sameFlags {b b' : ScheduleBatch ρ} (hb : Disjunctions b)
    (h : SameFlags b b') : Disjunctions b' where
  returnLogprob := by
    rw [h.returnLogprob, hb.returnLogprob]
    exact (any_of_settings (p := ReqSettings.returnLogprob) h.settings).symm
  returnHiddenStates := by
    rw [h.returnHiddenStates, hb.returnHiddenStates]
    exact (any_of_settings (p := ReqSettings.returnHiddenStates) h.settings).symm
  hasStream := by
    rw [h.hasStream, hb.hasStream]
    exact (any_of_settings (p := ReqSettings.stream) h.settings).symm
  hasGrammar := by
    rw [h.hasGrammar, hb.hasGrammar]
    exact (any_of_settings (p := ReqSettings.hasGrammar) h.settings).symm

theorem FlagsSound.sameFlags {b b' : ScheduleBatch ρ} (hb : FlagsSound b)
    (h : SameFlags b b') : FlagsSound b' := by
  refine ⟨hb.toDisjunctions.sameFlags h, ?_⟩
  intro hne
  have hne' : b.allReqs ≠ [] := by
    intro hnil
    have hmap := h.settings
    rw [hnil, List.map_nil, List.map_eq_nil_iff] at hmap
    exact hne hmap
  have hconj := hb.conjunctions hne'
  exact {
    returnOutputLogprobOnly := by
      rw [h.returnOutputLogprobOnly, hconj.returnOutputLogprobOnly]
      exact (all_of_settings (p := ReqSettings.returnOutputLogprobOnly) h.settings).symm
    isPrefillOnly := by
      rw [h.isPrefillOnly, hconj.isPrefillOnly]
      exact (all_of_settings (p := ReqSettings.prefillOnly) h.settings).symm }

theorem forRanksExtend_settings {returnLogprob : Bool} {mem : ExtendMemory} {rank : Nat}
    {freeSlots freeSlots' : List Nat} {infos infos' : List (ScheduleReqsInfo ρ)}
    (hok : forRanksExtend returnLogprob mem rank freeSlots infos = .ok (infos', freeSlots')) :
    List.Forall₂ (fun info info' : ScheduleReqsInfo ρ =>
      info'.reqs.map BatchReq.settings = info.reqs.map BatchReq.settings) infos infos' := by
  induction infos generalizing rank freeSlots infos' with
  | nil =>
    cases hok
    exact .nil
  | cons info infos ih =>
    unfold forRanksExtend at hok
    obtain ⟨⟨head, free⟩, hhead, hrest⟩ := bind_eq_ok.mp hok
    obtain ⟨⟨tail, free'⟩, htail, heq⟩ := bind_eq_ok.mp hrest
    cases heq
    exact .cons (ScheduleReqsInfo.prepareForExtend_settings hhead) (ih htail)

theorem sameFlags_prepareForExtend {mem : ExtendMemory} {b b' : ScheduleBatch ρ}
    {freeSlots : List Nat} (hok : b.prepareForExtend mem = .ok (b', freeSlots)) :
    SameFlags b b' := by
  unfold prepareForExtend at hok
  obtain ⟨⟨infos, free⟩, hinfos, heq⟩ := bind_eq_ok.mp hok
  cases heq
  exact ⟨rfl, rfl, rfl, rfl, rfl, rfl, flatMap_settings (forRanksExtend_settings hinfos)⟩

theorem sameFlags_prepareForDecode {kvServed : Nat → Bool} {b b' : ScheduleBatch ρ}
    (hok : b.prepareForDecode kvServed = .ok b') : SameFlags b b' := by
  unfold prepareForDecode at hok
  obtain ⟨infos, hinfos, heq⟩ := bind_eq_ok.mp hok
  cases heq
  refine ⟨rfl, rfl, rfl, rfl, rfl, rfl, flatMap_settings (forRanks_forall₂ ?_ hinfos)⟩
  intro rank info info' h
  exact ScheduleReqsInfo.prepareForDecode_settings h

theorem sameFlags_extractDpOutputIds (nextTokenIdsFlat : List Int) (perDpBsSize : Nat)
    (b : ScheduleBatch ρ) :
    SameFlags b (b.extractDpOutputIds nextTokenIdsFlat perDpBsSize) := by
  refine ⟨rfl, rfl, rfl, rfl, rfl, rfl, flatMap_settings ?_⟩
  rw [List.forall₂_iff_get]
  refine ⟨by simp [extractDpOutputIds], ?_⟩
  intro i hi hi'
  simp only [extractDpOutputIds, List.get_eq_getElem, List.getElem_mapIdx,
    ScheduleReqsInfo.extractOutputIds]
  apply List.ext_getElem
  · simp
  · intro j hj hj'
    simp [BatchReq.settings]

theorem sameFlags_finishReqs (stops : BatchReq ρ → Bool) (b : ScheduleBatch ρ) :
    SameFlags b (b.finishReqs stops) := by
  refine ⟨rfl, rfl, rfl, rfl, rfl, rfl, flatMap_settings ?_⟩
  unfold finishReqs
  rw [List.forall₂_map_right_iff, List.forall₂_same]
  intro info _
  simp [BatchReq.settings]

theorem FlagsSound.initNew {reqs : List (List (BatchReq ρ))} {dpSize : Nat}
    {b : ScheduleBatch ρ} (hok : ScheduleBatch.initNew reqs dpSize = .ok b) : FlagsSound b := by
  unfold ScheduleBatch.initNew at hok
  split at hok
  · cases hok
  · cases hok
    have hall : (reqs.map (fun rs => ({ reqs := rs } : ScheduleReqsInfo ρ))).flatMap (·.reqs) =
        reqs.flatten := by
      rw [List.flatMap_map]
      exact List.flatMap_id
    refine ⟨⟨?_, ?_, ?_, ?_⟩, fun _ => ⟨?_, ?_⟩⟩ <;> simp only [allReqs, hall]

theorem filterBatch_allReqs {chunkedReqToExclude : Nat → Option Nat}
    {keepIndices : Option (Nat → Option (List Nat))} {b b' : ScheduleBatch ρ}
    (hok : b.filterBatch chunkedReqToExclude keepIndices = .ok b') :
    b'.allReqs = b.keptReqs chunkedReqToExclude keepIndices := by
  unfold ScheduleBatch.filterBatch at hok
  obtain ⟨infos, hinfos, heq⟩ := bind_eq_ok.mp hok
  cases heq
  have hreqs := forRanks_map (p := ScheduleReqsInfo.reqs) (fun rank info info' h =>
    ScheduleReqsInfo.filterBatch_reqs h) hinfos
  unfold allReqs keptReqs
  rw [List.flatMap_def, hreqs]
  simp only [Nat.zero_add]

theorem mem_of_mem_keptReqs {chunkedReqToExclude : Nat → Option Nat}
    {keepIndices : Option (Nat → Option (List Nat))} {b : ScheduleBatch ρ} {r : BatchReq ρ}
    (h : r ∈ b.keptReqs chunkedReqToExclude keepIndices) : r ∈ b.allReqs := by
  unfold keptReqs at h
  rw [List.mem_flatten] at h
  obtain ⟨rs, hrs, hr⟩ := h
  rw [List.mem_mapIdx] at hrs
  obtain ⟨rank, hrank, rfl⟩ := hrs
  apply List.mem_flatMap.mpr
  refine ⟨b.reqsInfo[rank], List.getElem_mem hrank, ?_⟩
  dsimp only at hr
  split at hr
  · exact hr
  · exact mem_of_mem_picked hr

theorem Disjunctions.filter {chunkedReqToExclude : Nat → Option Nat}
    {keepIndices : Option (Nat → Option (List Nat))} {b b' : ScheduleBatch ρ}
    (hok : b.filterBatch chunkedReqToExclude keepIndices = .ok b') : Disjunctions b' := by
  unfold ScheduleBatch.filterBatch at hok
  obtain ⟨infos, -, heq⟩ := bind_eq_ok.mp hok
  cases heq
  exact ⟨rfl, rfl, rfl, rfl⟩

/-- After `filter_batch` the flags are right unless the batch was not prefill-only
and only prefill-only requests are left. -/
theorem filterBatch_sound_iff {chunkedReqToExclude : Nat → Option Nat}
    {keepIndices : Option (Nat → Option (List Nat))} {b b' : ScheduleBatch ρ}
    (hb : FlagsSound b) (hok : b.filterBatch chunkedReqToExclude keepIndices = .ok b') :
    FlagsSound b' ↔ BatchCare.flags.filter chunkedReqToExclude keepIndices b := by
  have hall := filterBatch_allReqs hok
  have hprefill : b'.isPrefillOnly = b.isPrefillOnly := by
    unfold ScheduleBatch.filterBatch at hok
    obtain ⟨infos, -, heq⟩ := bind_eq_ok.mp hok
    cases heq
    rfl
  constructor
  · intro hb' hfalse hne
    have hconj := (hb'.conjunctions (hall ▸ hne)).isPrefillOnly
    rw [hprefill, hfalse, hall, eq_comm, List.all_eq_false] at hconj
    obtain ⟨r, hr, hmax⟩ := hconj
    exact ⟨r, hr, by simpa using hmax⟩
  · intro hcare
    have hdisj := Disjunctions.filter hok
    unfold ScheduleBatch.filterBatch at hok
    obtain ⟨infos, -, heq⟩ := bind_eq_ok.mp hok
    cases heq
    refine ⟨hdisj, fun hne => ⟨?_, ?_⟩⟩
    · exact if_neg (fun h => hne (List.isEmpty_iff.mp h))
    · dsimp only
      rw [hall] at hne ⊢
      cases hflag : b.isPrefillOnly with
      | true =>
        -- every request of the batch is prefill-only, so the ones that stay are too
        have hbne : b.allReqs ≠ [] := by
          obtain ⟨r, hr⟩ := List.exists_mem_of_ne_nil _ hne
          exact List.ne_nil_of_mem (mem_of_mem_keptReqs hr)
        have hconj := (hb.conjunctions hbne).isPrefillOnly
        rw [hflag, eq_comm, List.all_eq_true] at hconj
        rw [eq_comm, List.all_eq_true]
        intro r hr
        exact hconj r (mem_of_mem_keptReqs hr)
      | false =>
        obtain ⟨r, hr, hmax⟩ := hcare hflag hne
        rw [eq_comm, List.all_eq_false]
        exact ⟨r, hr, by simpa using hmax⟩

theorem mergeRanks_perm {selfReturns otherReturns : Bool}
    {selfs others infos : List (ScheduleReqsInfo ρ)} (hlen : selfs.length = others.length)
    (hok : mergeRanks selfReturns otherReturns selfs others = .ok infos) :
    (infos.flatMap (·.reqs)).Perm
      (selfs.flatMap (·.reqs) ++ others.flatMap (·.reqs)) := by
  induction selfs generalizing others infos with
  | nil =>
    cases others with
    | nil =>
      cases hok
      exact .refl _
    | cons other others => simp at hlen
  | cons self selfs ih =>
    cases others with
    | nil => simp at hlen
    | cons other others =>
      unfold mergeRanks at hok
      obtain ⟨head, hhead, hrest⟩ := bind_eq_ok.mp hok
      obtain ⟨tail, htail, heq⟩ := bind_eq_ok.mp hrest
      cases heq
      have hperm := ih (by simpa using hlen) htail
      simp only [List.flatMap_cons, ScheduleReqsInfo.mergeBatch_reqs hhead, List.append_assoc]
      apply List.Perm.append_left
      apply (hperm.append_left _).trans
      rw [← List.append_assoc, ← List.append_assoc]
      exact List.perm_append_comm.append_right _

theorem mergeBatch_perm {self other b : ScheduleBatch ρ}
    (hok : self.mergeBatch other = .ok b) : b.allReqs.Perm (self.allReqs ++ other.allReqs) := by
  unfold ScheduleBatch.mergeBatch at hok
  split at hok
  · cases hok
  · next hlen =>
    obtain ⟨infos, hinfos, heq⟩ := bind_eq_ok.mp hok
    cases heq
    exact mergeRanks_perm (by simpa [dpSize] using hlen) hinfos

/-- How `merge_batch` sets the flags. -/
structure MergedFlags (batch other merged : ScheduleBatch ρ) : Prop where
  returnLogprob : merged.returnLogprob = (batch.returnLogprob || other.returnLogprob)
  returnHiddenStates :
    merged.returnHiddenStates = (batch.returnHiddenStates || other.returnHiddenStates)
  hasStream : merged.hasStream = (batch.hasStream || other.hasStream)
  hasGrammar : merged.hasGrammar = (batch.hasGrammar || other.hasGrammar)
  returnOutputLogprobOnly :
    merged.returnOutputLogprobOnly =
      (batch.returnOutputLogprobOnly || other.returnOutputLogprobOnly)
  isPrefillOnly : merged.isPrefillOnly = batch.isPrefillOnly

theorem mergeBatch_flags {self other b : ScheduleBatch ρ}
    (hok : self.mergeBatch other = .ok b) : MergedFlags self other b := by
  unfold ScheduleBatch.mergeBatch at hok
  split at hok
  · cases hok
  · obtain ⟨infos, -, heq⟩ := bind_eq_ok.mp hok
    cases heq
    exact ⟨rfl, rfl, rfl, rfl, rfl, rfl⟩

theorem Disjunctions.merge {self other b : ScheduleBatch ρ} (hself : Disjunctions self)
    (hother : Disjunctions other) (hok : self.mergeBatch other = .ok b) : Disjunctions b := by
  have hflags := mergeBatch_flags hok
  have hperm := mergeBatch_perm hok
  refine ⟨?_, ?_, ?_, ?_⟩
  · rw [hflags.returnLogprob, hself.returnLogprob, hother.returnLogprob, hperm.any_eq,
      List.any_append]
  · rw [hflags.returnHiddenStates, hself.returnHiddenStates, hother.returnHiddenStates,
      hperm.any_eq, List.any_append]
  · rw [hflags.hasStream, hself.hasStream, hother.hasStream, hperm.any_eq, List.any_append]
  · rw [hflags.hasGrammar, hself.hasGrammar, hother.hasGrammar, hperm.any_eq, List.any_append]

/-- After `merge_batch` the flags are right exactly when those of the two batches
agreed. -/
theorem mergeBatch_sound_iff {self other b : ScheduleBatch ρ} (hself : FlagsSound self)
    (hother : FlagsSound other) (hok : self.mergeBatch other = .ok b) :
    FlagsSound b ↔ FlagsAgree self other := by
  have hperm := mergeBatch_perm hok
  have hflags := mergeBatch_flags hok
  have hall : ∀ p : BatchReq ρ → Bool,
      b.allReqs.all p = (self.allReqs.all p && other.allReqs.all p) := by
    intro p
    rw [hperm.all_eq, List.all_append]
  have hnil : b.allReqs = [] ↔ self.allReqs = [] ∧ other.allReqs = [] := by
    rw [← List.append_eq_nil_iff]
    exact ⟨fun h => (h ▸ hperm).nil_eq.symm, fun h => (h ▸ hperm).eq_nil⟩
  have hsound : FlagsSound b ↔ (b.allReqs ≠ [] → Conjunctions b) :=
    ⟨fun h => h.conjunctions,
      fun h => ⟨hself.toDisjunctions.merge hother.toDisjunctions hok, h⟩⟩
  have hconj : Conjunctions b ↔
      (self.returnOutputLogprobOnly || other.returnOutputLogprobOnly) =
        (self.allReqs.all (·.returnOutputLogprobOnly) &&
          other.allReqs.all (·.returnOutputLogprobOnly)) ∧
      self.isPrefillOnly =
        (self.allReqs.all (·.samplingParams.maxNewTokens == 0) &&
          other.allReqs.all (·.samplingParams.maxNewTokens == 0)) := by
    rw [← hall, ← hall, ← hflags.returnOutputLogprobOnly, ← hflags.isPrefillOnly]
    exact ⟨fun h => ⟨h.1, h.2⟩, fun h => ⟨h.1, h.2⟩⟩
  rw [hsound]
  by_cases hs : self.allReqs = []
  · by_cases ho : other.allReqs = []
    · have hb : b.allReqs = [] := hnil.mpr ⟨hs, ho⟩
      exact ⟨fun _ => ⟨fun h => absurd hs h, fun _ h => absurd ho h, fun h => absurd hs h⟩,
        fun _ h => absurd hb h⟩
    · have hb : b.allReqs ≠ [] := fun h => ho (hnil.mp h).2
      have hc := hother.conjunctions ho
      rw [hconj, ← hc.returnOutputLogprobOnly, ← hc.isPrefillOnly, hs]
      simp only [List.all_nil, Bool.true_and]
      constructor
      · intro h
        refine ⟨fun h => absurd hs h, fun _ _ => ⟨?_, (h hb).2⟩, fun h => absurd hs h⟩
        intro hflag
        rw [← (h hb).1, hflag, Bool.true_or]
      · intro h _
        refine ⟨?_, (h.fresh hs ho).2⟩
        cases hflag : self.returnOutputLogprobOnly with
        | true => rw [(h.fresh hs ho).1 hflag, Bool.true_or]
        | false => rw [Bool.false_or]
  · have hb : b.allReqs ≠ [] := fun h => hs (hnil.mp h).1
    have hc := hself.conjunctions hs
    by_cases ho : other.allReqs = []
    · rw [hconj, ← hc.returnOutputLogprobOnly, ← hc.isPrefillOnly, ho]
      simp only [List.all_nil, Bool.and_true, and_true]
      constructor
      · intro h
        refine ⟨fun _ h => absurd ho h, fun h => absurd h hs, fun _ _ hflag => ?_⟩
        rw [← h hb, hflag, Bool.or_true]
      · intro h _
        cases hflag : other.returnOutputLogprobOnly with
        | true => rw [h.nothing hs ho hflag, Bool.or_true]
        | false => rw [Bool.or_false]
    · have hd := hother.conjunctions ho
      rw [hconj, ← hc.returnOutputLogprobOnly, ← hc.isPrefillOnly,
        ← hd.returnOutputLogprobOnly, ← hd.isPrefillOnly]
      constructor
      · intro h
        obtain ⟨honly, hprefill⟩ := h hb
        refine ⟨fun _ _ => ⟨?_, ?_⟩, fun h => absurd h hs, fun _ h => absurd h ho⟩
        · revert honly
          cases self.returnOutputLogprobOnly <;> cases other.returnOutputLogprobOnly <;> simp
        · intro hflag
          rw [hflag, Bool.true_and] at hprefill
          exact hprefill.symm
      · intro h _
        obtain ⟨honly, hprefill⟩ := h.both hs ho
        rw [honly, Bool.or_self, Bool.and_self]
        refine ⟨rfl, ?_⟩
        cases hflag : self.isPrefillOnly with
        | true => rw [hprefill hflag, Bool.true_and]
        | false => rw [Bool.false_and]

theorem run_flagsSound {b : ScheduleBatch ρ} (run : BatchRun BatchCare.flags b) :
    FlagsSound b := by
  induction run with
  | initNew hok => exact .initNew hok
  | extend _ _ hok ih => exact ih.sameFlags (sameFlags_prepareForExtend hok)
  | forward _ _ ih => exact ih.sameFlags (sameFlags_extractDpOutputIds _ _ _)
  | finish _ stops ih => exact ih.sameFlags (sameFlags_finishReqs stops _)
  | decode _ _ hok ih => exact ih.sameFlags (sameFlags_prepareForDecode hok)
  | filter _ hcare hok ih => exact (filterBatch_sound_iff ih hok).mpr hcare
  | merge _ _ hcare hok ihSelf ihOther => exact (mergeBatch_sound_iff ihSelf ihOther hok).mpr hcare

/-- In a run whose filters and merges meet the conditions on the flags, the flags
summarize every batch that has requests. -/
theorem run_summarizes {b : ScheduleBatch ρ} (run : BatchRun BatchCare.flags b)
    (hne : b.allReqs ≠ []) : Summarized b :=
  ⟨(run_flagsSound run).toDisjunctions, (run_flagsSound run).conjunctions hne⟩

/-- A request of three tokens that generates eight. -/
def shortReq (uid : Nat) (returnOutputLogprobOnly : Bool) : BatchReq Nat where
  uid := uid
  samplingParams := ⟨8, 1, 1, 1, 0, 0⟩
  returnLogprob := returnOutputLogprobOnly
  returnOutputLogprobOnly := returnOutputLogprobOnly
  returnHiddenStates := false
  stream := false
  hasGrammar := false
  topLogprobsNum := 0
  tokenIdsLogprob := none
  fillLen := 3
  kvCommittedLen := 0
  reqPoolIdx := none
  isChunked := 0
  finished := false
  nextToken := none

/-- A new batch of one rank, prepared with the given free slots. -/
def startRank (reqs : List (BatchReq Nat)) (freeSlots : List Nat) :
    Except BatchError (ScheduleBatch Nat) := do
  let b ← initNew [reqs] 1
  let (b, _) ← b.prepareForExtend ⟨false, freeSlots, fun _ => true⟩
  return b

theorem startRank_run {care : BatchCare Nat} {reqs : List (BatchReq Nat)} {freeSlots : List Nat}
    (hcare : ∀ b, initNew [reqs] 1 = .ok b →
      care.extend ⟨false, freeSlots, fun _ => true⟩ b) {b : ScheduleBatch Nat}
    (hok : startRank reqs freeSlots = .ok b) : BatchRun care b := by
  obtain ⟨new, hnew, hok⟩ := bind_eq_ok.mp hok
  obtain ⟨⟨prepared, rest⟩, hprepared, heq⟩ := bind_eq_ok.mp hok
  cases heq
  exact .extend (.initNew hnew) (hcare new hnew) hprepared

/-- Two requests that both want the logprobs of their output only: the batch they
are merged into is summarized. -/
theorem sameWish_summarized : ∃ a b merged, startRank [shortReq 0 true] [1] = .ok a ∧
    startRank [shortReq 1 true] [2] = .ok b ∧ a.mergeBatch b = .ok merged ∧
    FlagsAgree a b ∧ merged.allReqs.length = 2 ∧ Summarized merged := by
  obtain ⟨a, b, merged, ha, hb, hok, hone, htwo, hflags, hprefill⟩ :
      ∃ a b merged, startRank [shortReq 0 true] [1] = .ok a ∧
        startRank [shortReq 1 true] [2] = .ok b ∧ a.mergeBatch b = .ok merged ∧
        (a.allReqs.length = 1 ∧ b.allReqs.length = 1) ∧ merged.allReqs.length = 2 ∧
        a.returnOutputLogprobOnly = b.returnOutputLogprobOnly ∧ a.isPrefillOnly = false :=
    ⟨_, _, _, rfl, rfl, rfl, ⟨rfl, rfl⟩, rfl, rfl, rfl⟩
  have hagree : FlagsAgree a b := by
    refine ⟨fun _ _ => ⟨hflags, ?_⟩, ?_, ?_⟩
    · simp [hprefill]
    · intro hnil
      simp [hnil] at hone
    · intro _ hnil
      simp [hnil] at hone
  have hrunA : BatchRun BatchCare.flags a := startRank_run (fun _ _ => trivial) ha
  have hrunB : BatchRun BatchCare.flags b := startRank_run (fun _ _ => trivial) hb
  have hrun := BatchRun.merge hrunA hrunB hagree hok
  refine ⟨a, b, merged, ha, hb, hok, hagree, htwo, run_summarizes hrun ?_⟩
  intro hnil
  simp [hnil] at htwo

/-- One request that wants the logprobs of its output only and one that wants none:
the flag of the batch they are merged into says that both do. -/
theorem mixedWish_not_summarized : ¬ ∀ b : ScheduleBatch Nat, BatchRun BatchCare.free b →
    b.allReqs ≠ [] → Summarized b := by
  intro hall
  obtain ⟨a, ha⟩ : ∃ a, startRank [shortReq 0 true] [1] = .ok a := ⟨_, rfl⟩
  obtain ⟨b, hb⟩ : ∃ b, startRank [shortReq 1 false] [2] = .ok b := ⟨_, rfl⟩
  have hrunA : BatchRun BatchCare.free a := startRank_run (fun _ _ => trivial) ha
  have hrunB : BatchRun BatchCare.free b := startRank_run (fun _ _ => trivial) hb
  cases ha
  cases hb
  have hsum := hall _ (.merge hrunA hrunB trivial rfl) (fun h => nomatch h)
  exact absurd hsum.returnOutputLogprobOnly (by decide)

end ScheduleBatch

end SglJax.Managers
