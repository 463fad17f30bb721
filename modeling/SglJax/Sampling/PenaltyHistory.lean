import SglJax.Sampling.PenaltyOrchestrator

/-! In every run whose steps prefill requests with penalties only before they have
output, and under overlap decode them only in pace with the tokens that are returned,
the penalties of a request before a decode step are those of its own output. -/
namespace SglJax.Sampling

open Foundation

/-! ### One rank -/

/-- The orchestrator of a rank follows its requests. -/
def PenaltyInfo.Follows (store : ReqStore) (info : PenaltyInfo) : Prop :=
  info.orchestrator.Follows (info.reqs.map store)

/-- The id is the output token of the request that no step was prepared with. A request
that is not completely prefilled has none yet. -/
def NextOutput (store : ReqStore) (uid id : Nat) : Prop :=
  (store uid).isChunked = false → (store uid).params.Penalized →
    ∃ earlier, (store uid).outputIds = earlier ++ [id] ∧
      earlier.length = (store uid).decodeBatchIdx

theorem NextOutput.fed {store : ReqStore} {uid id : Nat} (h : NextOutput store uid id)
    (hwhole : (store uid).isChunked = false) (hpen : (store uid).params.Penalized) :
    (store uid).decoded.fed = (store uid).fed ++ [id] := by
  obtain ⟨earlier, hout, hlen⟩ := h hwhole hpen
  show (store uid).outputIds.take ((store uid).decodeBatchIdx + 1) =
    (store uid).outputIds.take (store uid).decodeBatchIdx ++ [id]
  rw [hout, ← hlen, List.take_left, List.take_of_length_le (by simp)]

namespace PenaltyInfo

variable {store store' : ReqStore} {info other : PenaltyInfo}

theorem follows_empty (store : ReqStore) : Follows store {} := by
  have hinit : BatchedPenalizerOrchestrator.Follows [] (.init []) :=
    BatchedPenalizerOrchestrator.follows_init fun req hreq => by cases hreq
  exact hinit

theorem follows_prefilled {reqs : List Nat} (h : ∀ uid ∈ reqs, (store uid).decodeBatchIdx = 0) :
    Follows store (prefilled store reqs) := by
  unfold Follows prefilled
  dsimp only
  have hparams : (reqs.map fun uid => (store uid).params) = (reqs.map store).map (·.params) := by
    rw [List.map_map]
    rfl
  rw [hparams]
  apply BatchedPenalizerOrchestrator.follows_init
  intro req hreq
  obtain ⟨uid, huid, rfl⟩ := List.mem_map.mp hreq
  unfold PenaltyReq.fed
  rw [h uid huid, List.take_zero]

/-- The requests change in ways that no penalizer has seen. -/
theorem Follows.congr (h : Follows store info)
    (hsame : ∀ uid ∈ info.reqs, (store' uid).params = (store uid).params ∧
      ((store uid).params.Penalized → (store' uid).fed = (store uid).fed)) :
    Follows store' info := by
  apply BatchedPenalizerOrchestrator.Follows.congr h
  rw [List.forall₂_map_left_iff, List.forall₂_map_right_iff, List.forall₂_same]
  exact hsame

theorem Follows.prepareForDecode (h : Follows store info) {enableOverlap : Bool}
    (hnext : List.Forall₂ (fun uid id => (store uid).params.Penalized →
      (store uid).decoded.fed = (store uid).fed ++ [id]) info.reqs
        (info.fedOutputIds store enableOverlap))
    (hstore : ∀ uid ∈ info.reqs, store' uid = (store uid).decoded) :
    Follows store' (info.prepareForDecode store enableOverlap) := by
  have hreqs : info.reqs.map store' = (info.reqs.map store).map PenaltyReq.decoded := by
    rw [List.map_map]
    exact List.map_congr_left hstore
  have hfed : BatchedPenalizerOrchestrator.Follows (info.reqs.map store')
      (info.orchestrator.cumulateOutputTokens (info.fedOutputIds store enableOverlap)) := by
    rw [hreqs]
    apply BatchedPenalizerOrchestrator.Follows.cumulate h
    rw [List.forall₂_map_left_iff]
    exact hnext
  unfold PenaltyInfo.prepareForDecode Follows
  split
  · rename_i hnone
    have hnil : info.reqs = [] := by simpa using hnone
    unfold Follows at h
    dsimp only
    rw [hnil] at h ⊢
    exact h
  · dsimp only
    split
    · exact hfed
    · rename_i hidle
      rw [← BatchedPenalizerOrchestrator.Follows.cumulate_of_idle h (by simpa using hidle)]
      exact hfed

theorem Follows.filterBatch (h : Follows store info) (keepIndices : List Nat) :
    Follows store (info.filterBatch store keepIndices) := by
  unfold PenaltyInfo.filterBatch
  split
  · exact h
  · split
    · exact follows_empty store
    · split
      · exact h
      · rename_i hsome _
        have hne : keepIndices ≠ [] := by simpa using hsome
        have hkept := BatchedPenalizerOrchestrator.Follows.filter h hne
        rw [picked_map, List.map_map] at hkept
        exact hkept

theorem Follows.mergeBatch (h : Follows store info) (h' : Follows store other) :
    Follows store (info.mergeBatch store other) := by
  unfold PenaltyInfo.mergeBatch
  split
  · exact h
  · split
    · exact h'
    · have hboth := BatchedPenalizerOrchestrator.Follows.merge h h'
      rw [List.map_map, List.map_map, ← List.map_append] at hboth
      exact hboth

/-- Every request of the rank has its next output token in `output_ids`. -/
def Next (store : ReqStore) (info : PenaltyInfo) : Prop :=
  List.Forall₂ (NextOutput store) info.reqs info.outputIds

theorem next_empty (store : ReqStore) : Next store {} := .nil

theorem Next.filterBatch (h : Next store info) (keepIndices : List Nat) :
    Next store (info.filterBatch store keepIndices) := by
  unfold PenaltyInfo.filterBatch
  split
  · exact h
  · split
    · exact next_empty store
    · split
      · exact h
      · exact Beside.some_iff.mp ((Beside.some_iff.mpr h).picked keepIndices)

theorem Next.mergeBatch (h : Next store info) (h' : Next store other) :
    Next store (info.mergeBatch store other) := by
  unfold PenaltyInfo.mergeBatch
  split
  · exact h
  · split
    · exact h'
    · have hlen := List.Forall₂.length_eq h
      have hlen' := List.Forall₂.length_eq h'
      unfold Next
      dsimp only
      rw [hlen, hlen', List.take_length, List.take_length]
      exact List.rel_append h h'

/-! ### What the operations do to the requests of a rank -/

theorem mem_filterBatch {keepIndices : List Nat} {uid : Nat}
    (h : uid ∈ (info.filterBatch store keepIndices).reqs) : uid ∈ info.reqs := by
  unfold PenaltyInfo.filterBatch at h
  split at h
  · exact h
  · split at h
    · cases h
    · split at h
      · exact h
      · exact mem_of_mem_picked h

theorem reqs_mergeBatch (store : ReqStore) (info other : PenaltyInfo) :
    (info.mergeBatch store other).reqs = info.reqs ++ other.reqs := by
  unfold PenaltyInfo.mergeBatch
  split
  · rename_i hnone
    rw [List.isEmpty_iff.mp hnone, List.append_nil]
  · split
    · rename_i hnone
      rw [List.isEmpty_iff.mp hnone, List.nil_append]
    · rfl

theorem reqs_prepareForDecode (store : ReqStore) (enableOverlap : Bool) (info : PenaltyInfo) :
    (info.prepareForDecode store enableOverlap).reqs = info.reqs := by
  unfold PenaltyInfo.prepareForDecode
  split <;> rfl

end PenaltyInfo

/-! ### A run -/

@[simp] theorem mem_reqsOf {batch : List PenaltyInfo} {uid : Nat} :
    uid ∈ reqsOf batch ↔ ∃ info ∈ batch, uid ∈ info.reqs := by
  unfold reqsOf
  exact List.mem_flatMap

/-- What holds after every step. -/
structure Inv (enableOverlap : Bool) (s : PenaltyState) : Prop where
  running : ∀ info ∈ s.running, info.Follows s.store
  last : ∀ info ∈ s.last, info.Follows s.store
  apart : ∀ uid ∈ reqsOf s.running, uid ∉ reqsOf s.last
  whole : ∀ uid ∈ reqsOf s.running, (s.store uid).isChunked = false
  start : ∀ uid ∈ reqsOf s.last, (s.store uid).decodeBatchIdx = 0
  bounded : ∀ uid ∈ reqsOf s.running, (s.store uid).params.Penalized →
    (s.store uid).decodeBatchIdx ≤ (s.store uid).outputIds.length
  overlap : enableOverlap = true → s.awaited = .nothing
  nextRunning : enableOverlap = false → s.awaited ≠ .decode → ∀ info ∈ s.running, info.Next s.store
  nextLast : enableOverlap = false → s.awaited ≠ .prefill → ∀ info ∈ s.last, info.Next s.store
  decoded : s.awaited = .decode → ∀ uid ∈ reqsOf s.running, (s.store uid).params.Penalized →
    (s.store uid).outputIds.length = (s.store uid).decodeBatchIdx
  fresh : s.awaited = .prefill → ∀ uid ∈ reqsOf s.last, (s.store uid).params.Penalized →
    (s.store uid).outputIds = []

section Stores

variable {store store' : ReqStore} {info : PenaltyInfo}

theorem PenaltyInfo.Follows.same (h : info.Follows store)
    (hsame : ∀ uid ∈ info.reqs, store' uid = store uid) : info.Follows store' := by
  apply h.congr
  intro uid huid
  rw [hsame uid huid]
  exact ⟨rfl, fun _ => rfl⟩

theorem PenaltyInfo.Next.same (h : info.Next store)
    (hsame : ∀ uid ∈ info.reqs, store' uid = store uid) : info.Next store' := by
  apply forall₂_imp_mem h
  intro uid huid id hid
  unfold NextOutput
  rw [hsame uid huid]
  exact hid

theorem fed_append {req : PenaltyReq} (h : req.decodeBatchIdx ≤ req.outputIds.length) (token : Nat) :
    (req.append token).fed = req.fed :=
  List.take_append_of_le_length h

theorem modify_of_notMem {uids : List Nat} {uid : Nat} (h : uid ∉ uids) (f : PenaltyReq → PenaltyReq) :
    store.modify uids f uid = store uid := if_neg h

theorem modify_of_mem {uids : List Nat} {uid : Nat} (h : uid ∈ uids) (f : PenaltyReq → PenaltyReq) :
    store.modify uids f uid = f (store uid) := if_pos h

theorem deliver_of_notMem {uids : List Nat} {uid : Nat} (h : uid ∉ uids) (tokens : Nat → Nat)
    (f : PenaltyReq → Nat → PenaltyReq) : store.deliver uids tokens f uid = store uid := if_neg h

theorem deliver_of_mem {uids : List Nat} {uid : Nat} (h : uid ∈ uids) (tokens : Nat → Nat)
    (f : PenaltyReq → Nat → PenaltyReq) :
    store.deliver uids tokens f uid = f (store uid) (tokens uid) := if_pos h

theorem setChunked_of_notMem {uids : List Nat} {uid : Nat} (h : uid ∉ uids)
    (isChunked : Nat → Bool) : store.setChunked uids isChunked uid = store uid := if_neg h

end Stores

namespace Inv

variable {enableOverlap : Bool} {s : PenaltyState}

/-- The requests outside of a list of requests are as before, so are their ranks. -/
theorem mem_running {info : PenaltyInfo} {uid : Nat} (hinfo : info ∈ s.running)
    (huid : uid ∈ info.reqs) : uid ∈ reqsOf s.running := mem_reqsOf.mpr ⟨info, hinfo, huid⟩

theorem mem_last {info : PenaltyInfo} {uid : Nat} (hinfo : info ∈ s.last)
    (huid : uid ∈ info.reqs) : uid ∈ reqsOf s.last := mem_reqsOf.mpr ⟨info, hinfo, huid⟩

theorem mem_prefilled {store : ReqStore} {groups : List (List Nat)} {uid : Nat} :
    uid ∈ reqsOf (groups.map (PenaltyInfo.prefilled store)) ↔ uid ∈ groups.flatten := by
  rw [mem_reqsOf, List.mem_flatten]
  simp [PenaltyInfo.prefilled]

theorem prefill (h : Inv enableOverlap s) {groups : List (List Nat)} {isChunked : Nat → Bool}
    (enabled : Enabled enableOverlap s (.prefill groups isChunked))
    (met : FreshPrefill s.store groups.flatten) :
    Inv enableOverlap (prefillBatch enableOverlap groups isChunked s) := by
  obtain ⟨hfree, -, -, hdistinct, hwaiting⟩ := enabled
  have hdisjoint := List.disjoint_of_nodup_append hdistinct
  have hsame : ∀ uid ∈ reqsOf s.running, s.store.setChunked groups.flatten isChunked uid =
      s.store uid := fun uid huid => setChunked_of_notMem (fun hmem => hdisjoint huid hmem) _
  have hkept : ∀ uid, (s.store.setChunked groups.flatten isChunked uid).params =
      (s.store uid).params ∧ (s.store.setChunked groups.flatten isChunked uid).outputIds =
      (s.store uid).outputIds ∧ (s.store.setChunked groups.flatten isChunked uid).decodeBatchIdx =
      (s.store uid).decodeBatchIdx := by
    intro uid
    unfold ReqStore.setChunked
    split <;> exact ⟨rfl, rfl, rfl⟩
  unfold prefillBatch
  constructor <;> dsimp only
  · intro info hinfo
    exact (h.running info hinfo).same fun uid huid => hsame uid (mem_running hinfo huid)
  · intro info hinfo
    obtain ⟨reqs, hreqs, rfl⟩ := List.mem_map.mp hinfo
    have hstart : PenaltyInfo.Follows s.store (PenaltyInfo.prefilled s.store reqs) :=
      PenaltyInfo.follows_prefilled fun uid huid =>
        hwaiting uid (List.mem_flatten_of_mem hreqs huid)
    apply hstart.congr
    intro uid _
    refine ⟨(hkept uid).1, fun _ => ?_⟩
    unfold PenaltyReq.fed
    rw [(hkept uid).2.1, (hkept uid).2.2]
  · intro uid huid hlast
    exact hdisjoint huid (mem_prefilled.mp hlast)
  · intro uid huid
    rw [hsame uid huid]
    exact h.whole uid huid
  · intro uid huid
    rw [(hkept uid).2.2]
    exact hwaiting uid (mem_prefilled.mp huid)
  · intro uid huid
    rw [hsame uid huid]
    exact h.bounded uid huid
  · intro hov
    rw [hov]
    rfl
  · intro hov _ info hinfo
    have hnext := h.nextRunning hov (by rw [hfree]; decide) info hinfo
    exact hnext.same fun uid huid => hsame uid (mem_running hinfo huid)
  · intro hov hne
    rw [hov] at hne
    exact absurd rfl hne
  · intro hdecode
    split at hdecode <;> cases hdecode
  · intro _ uid huid
    rw [(hkept uid).1, (hkept uid).2.1]
    exact met uid (mem_prefilled.mp huid)

theorem prefillResults (h : Inv enableOverlap s) (tokens : Nat → Nat)
    (enabled : s.awaited = .prefill) :
    Inv enableOverlap (next enableOverlap s (.prefillResults tokens)) := by
  have hov : enableOverlap = false := by
    rw [Bool.eq_false_iff]
    intro hov
    have hfree := h.overlap hov
    rw [enabled] at hfree
    cases hfree
  have hsame : ∀ uid ∈ reqsOf s.running,
      s.store.deliver (reqsOf s.last) tokens PenaltyReq.prefillResult uid = s.store uid :=
    fun uid huid => deliver_of_notMem (h.apart uid huid) _ _
  have hgot : ∀ uid ∈ reqsOf s.last,
      s.store.deliver (reqsOf s.last) tokens PenaltyReq.prefillResult uid =
        (s.store uid).prefillResult (tokens uid) := fun uid huid => deliver_of_mem huid _ _
  have hreqs : reqsOf (extractOutputIds tokens s.last) = reqsOf s.last := by
    unfold reqsOf extractOutputIds
    rw [List.flatMap_map]
  have hresult (req : PenaltyReq) (token : Nat) (hstart : req.decodeBatchIdx = 0) :
      (req.prefillResult token).params = req.params ∧ (req.prefillResult token).fed = req.fed ∧
        (req.prefillResult token).decodeBatchIdx = 0 := by
    unfold PenaltyReq.prefillResult
    split
    · exact ⟨rfl, rfl, hstart⟩
    · exact ⟨rfl, fed_append (by omega) token, hstart⟩
  unfold next
  constructor <;> dsimp only
  · intro info hinfo
    exact (h.running info hinfo).same fun uid huid => hsame uid (mem_running hinfo huid)
  · intro info hinfo
    obtain ⟨old, hold, rfl⟩ := List.mem_map.mp hinfo
    have hfollows : old.Follows (s.store.deliver (reqsOf s.last) tokens
        PenaltyReq.prefillResult) := by
      apply (h.last old hold).congr
      intro uid huid
      have hmem := mem_last hold huid
      obtain ⟨hparams, hfed, -⟩ := hresult (s.store uid) (tokens uid) (h.start uid hmem)
      rw [hgot uid hmem]
      exact ⟨hparams, fun _ => hfed⟩
    exact hfollows
  · rw [hreqs]
    exact h.apart
  · intro uid huid
    rw [hsame uid huid]
    exact h.whole uid huid
  · intro uid huid
    rw [hreqs] at huid
    rw [hgot uid huid]
    exact (hresult _ _ (h.start uid huid)).2.2
  · intro uid huid
    rw [hsame uid huid]
    exact h.bounded uid huid
  · intro _
    rfl
  · intro _ _ info hinfo
    have hnext := h.nextRunning hov (by rw [enabled]; decide) info hinfo
    exact hnext.same fun uid huid => hsame uid (mem_running hinfo huid)
  · intro _ _ info hinfo
    obtain ⟨old, hold, rfl⟩ := List.mem_map.mp hinfo
    unfold PenaltyInfo.Next
    dsimp only
    rw [List.forall₂_map_right_iff, List.forall₂_same]
    intro uid huid
    have hmem := mem_last hold huid
    unfold NextOutput
    rw [hgot uid hmem]
    intro hwhole hpen
    -- nothing was there before, so the token is the first
    unfold PenaltyReq.prefillResult at hwhole hpen ⊢
    split at hwhole
    · rename_i hchunked
      rw [hchunked] at hwhole
      cases hwhole
    · rename_i hchunked
      rw [if_neg hchunked] at hpen ⊢
      refine ⟨[], ?_, (h.start uid hmem).symm⟩
      show (s.store uid).outputIds ++ [tokens uid] = _
      rw [h.fresh enabled uid hmem hpen]
  · intro hdecode
    cases hdecode
  · intro hprefill
    cases hprefill

theorem decodeResults (h : Inv enableOverlap s) (tokens : Nat → Nat)
    (enabled : s.awaited = .decode) :
    Inv enableOverlap (next enableOverlap s (.decodeResults tokens)) := by
  have hsame : ∀ uid ∈ reqsOf s.last,
      s.store.deliver (reqsOf s.running) tokens PenaltyReq.append uid = s.store uid :=
    fun uid huid => deliver_of_notMem (fun hmem => h.apart uid hmem huid) _ _
  have hgot : ∀ uid ∈ reqsOf s.running,
      s.store.deliver (reqsOf s.running) tokens PenaltyReq.append uid =
        (s.store uid).append (tokens uid) := fun uid huid => deliver_of_mem huid _ _
  have hreqs : reqsOf (extractOutputIds tokens s.running) = reqsOf s.running := by
    unfold reqsOf extractOutputIds
    rw [List.flatMap_map]
  unfold next
  constructor <;> dsimp only
  · intro info hinfo
    obtain ⟨old, hold, rfl⟩ := List.mem_map.mp hinfo
    have hfollows : old.Follows (s.store.deliver (reqsOf s.running) tokens PenaltyReq.append) := by
      apply (h.running old hold).congr
      intro uid huid
      have hmem := mem_running hold huid
      rw [hgot uid hmem]
      exact ⟨rfl, fun hpen => fed_append (h.bounded uid hmem hpen) _⟩
    exact hfollows
  · intro info hinfo
    exact (h.last info hinfo).same fun uid huid => hsame uid (mem_last hinfo huid)
  · rw [hreqs]
    exact h.apart
  · intro uid huid
    rw [hreqs] at huid
    rw [hgot uid huid]
    exact h.whole uid huid
  · intro uid huid
    rw [hsame uid huid]
    exact h.start uid huid
  · intro uid huid hpen
    rw [hreqs] at huid
    rw [hgot uid huid] at hpen ⊢
    have hbound := h.bounded uid huid hpen
    show (s.store uid).decodeBatchIdx ≤ ((s.store uid).outputIds ++ [tokens uid]).length
    rw [List.length_append]
    omega
  · intro _
    rfl
  · intro _ _ info hinfo
    obtain ⟨old, hold, rfl⟩ := List.mem_map.mp hinfo
    unfold PenaltyInfo.Next
    dsimp only
    rw [List.forall₂_map_right_iff, List.forall₂_same]
    intro uid huid
    have hmem := mem_running hold huid
    unfold NextOutput
    rw [hgot uid hmem]
    intro _ hpen
    exact ⟨(s.store uid).outputIds, rfl, h.decoded enabled uid hmem hpen⟩
  · intro hov _ info hinfo
    have hnext := h.nextLast hov (by rw [enabled]; decide) info hinfo
    exact hnext.same fun uid huid => hsame uid (mem_last hinfo huid)
  · intro hdecode
    cases hdecode
  · intro hprefill
    cases hprefill

theorem returned (h : Inv enableOverlap s) (uid token : Nat) (overlap : enableOverlap = true) :
    Inv enableOverlap (next enableOverlap s (.returned uid token)) := by
  have hfree := h.overlap overlap
  let store' := s.store.modify [uid] fun req => req.append token
  have hkept (other : Nat) : (store' other).params = (s.store other).params ∧
      (store' other).isChunked = (s.store other).isChunked ∧
      (store' other).decodeBatchIdx = (s.store other).decodeBatchIdx ∧
      (s.store other).outputIds.length ≤ (store' other).outputIds.length ∧
      ((s.store other).decodeBatchIdx ≤ (s.store other).outputIds.length →
        (store' other).fed = (s.store other).fed) := by
    show ((if _ then _ else _ : PenaltyReq)).params = _ ∧ _
    unfold store' ReqStore.modify
    split
    · refine ⟨rfl, rfl, rfl, ?_, fun hle => fed_append hle token⟩
      exact (List.length_append ▸ Nat.le_add_right _ _)
    · exact ⟨rfl, rfl, rfl, le_rfl, fun _ => rfl⟩
  unfold next
  constructor <;> dsimp only
  · intro info hinfo
    apply (h.running info hinfo).congr
    intro other hother
    refine ⟨(hkept other).1, fun hpen => (hkept other).2.2.2.2 ?_⟩
    exact h.bounded other (mem_running hinfo hother) hpen
  · intro info hinfo
    apply (h.last info hinfo).congr
    intro other hother
    refine ⟨(hkept other).1, fun _ => (hkept other).2.2.2.2 ?_⟩
    rw [h.start other (mem_last hinfo hother)]
    exact Nat.zero_le _
  · exact h.apart
  · intro other hother
    exact (hkept other).2.1.trans (h.whole other hother)
  · intro other hother
    exact (hkept other).2.2.1.trans (h.start other hother)
  · intro other hother hpen
    have hbound := h.bounded other hother ((hkept other).1 ▸ hpen)
    have hidx := (hkept other).2.2.1
    have hlen := (hkept other).2.2.2.1
    show (store' other).decodeBatchIdx ≤ (store' other).outputIds.length
    omega
  · exact h.overlap
  · intro hov
    rw [overlap] at hov
    cases hov
  · intro hov
    rw [overlap] at hov
    cases hov
  · intro hdecode
    rw [hfree] at hdecode
    cases hdecode
  · intro hprefill
    rw [hfree] at hprefill
    cases hprefill

theorem mem_filterBatch {store : ReqStore} {keepIndices : Nat → List Nat}
    {batch : List PenaltyInfo} {info : PenaltyInfo} (h : info ∈ filterBatch store keepIndices batch) :
    ∃ old ∈ batch, ∃ keep, info = old.filterBatch store keep := by
  obtain ⟨rank, hrank, rfl⟩ := List.mem_mapIdx.mp h
  exact ⟨batch[rank], List.getElem_mem hrank, keepIndices rank, rfl⟩

theorem reqsOf_filterBatch {store : ReqStore} {keepIndices : Nat → List Nat}
    {batch : List PenaltyInfo} {uid : Nat} (h : uid ∈ reqsOf (filterBatch store keepIndices batch)) :
    uid ∈ reqsOf batch := by
  obtain ⟨info, hinfo, huid⟩ := mem_reqsOf.mp h
  obtain ⟨old, hold, keep, rfl⟩ := mem_filterBatch hinfo
  exact mem_reqsOf.mpr ⟨old, hold, PenaltyInfo.mem_filterBatch huid⟩

theorem filterRunning (h : Inv enableOverlap s) (keepIndices : Nat → List Nat) :
    Inv enableOverlap (next enableOverlap s (.filterRunning keepIndices)) where
  running info hinfo := by
    obtain ⟨old, hold, keep, rfl⟩ := mem_filterBatch hinfo
    exact (h.running old hold).filterBatch keep
  last := h.last
  apart uid huid := h.apart uid (reqsOf_filterBatch huid)
  whole uid huid := h.whole uid (reqsOf_filterBatch huid)
  start := h.start
  bounded uid huid := h.bounded uid (reqsOf_filterBatch huid)
  overlap := h.overlap
  nextRunning hov hne info hinfo := by
    obtain ⟨old, hold, keep, rfl⟩ := mem_filterBatch hinfo
    exact (h.nextRunning hov hne old hold).filterBatch keep
  nextLast := h.nextLast
  decoded hdecode uid huid := h.decoded hdecode uid (reqsOf_filterBatch huid)
  fresh := h.fresh

theorem filterLast (h : Inv enableOverlap s) (keepIndices : Nat → List Nat) :
    Inv enableOverlap (next enableOverlap s (.filterLast keepIndices)) where
  running := h.running
  last info hinfo := by
    obtain ⟨old, hold, keep, rfl⟩ := mem_filterBatch hinfo
    exact (h.last old hold).filterBatch keep
  apart uid huid hlast := h.apart uid huid (reqsOf_filterBatch hlast)
  whole := h.whole
  start uid huid := h.start uid (reqsOf_filterBatch huid)
  bounded := h.bounded
  overlap := h.overlap
  nextRunning := h.nextRunning
  nextLast hov hne info hinfo := by
    obtain ⟨old, hold, keep, rfl⟩ := mem_filterBatch hinfo
    exact (h.nextLast hov hne old hold).filterBatch keep
  decoded := h.decoded
  fresh hprefill uid huid := h.fresh hprefill uid (reqsOf_filterBatch huid)

theorem retract (h : Inv enableOverlap s) {uid : Nat}
    (gone : uid ∉ reqsOf s.running ++ reqsOf s.last) :
    Inv enableOverlap (next enableOverlap s (.retract uid)) := by
  rw [List.mem_append, not_or] at gone
  have hother (other : Nat) (hne : other ≠ uid) :
      s.store.modify [uid] (fun req => { req with decodeBatchIdx := 0 }) other = s.store other :=
    modify_of_notMem (by simpa using hne) _
  have hrunning : ∀ other ∈ reqsOf s.running,
      s.store.modify [uid] (fun req => { req with decodeBatchIdx := 0 }) other = s.store other :=
    fun other hmem => hother other fun heq => gone.1 (heq ▸ hmem)
  have hlast : ∀ other ∈ reqsOf s.last,
      s.store.modify [uid] (fun req => { req with decodeBatchIdx := 0 }) other = s.store other :=
    fun other hmem => hother other fun heq => gone.2 (heq ▸ hmem)
  unfold next
  constructor <;> dsimp only
  · intro info hinfo
    exact (h.running info hinfo).same fun other hmem => hrunning other (mem_running hinfo hmem)
  · intro info hinfo
    exact (h.last info hinfo).same fun other hmem => hlast other (mem_last hinfo hmem)
  · exact h.apart
  · intro other hmem
    rw [hrunning other hmem]
    exact h.whole other hmem
  · intro other hmem
    rw [hlast other hmem]
    exact h.start other hmem
  · intro other hmem
    rw [hrunning other hmem]
    exact h.bounded other hmem
  · exact h.overlap
  · intro hov hne info hinfo
    exact (h.nextRunning hov hne info hinfo).same fun other hmem =>
      hrunning other (mem_running hinfo hmem)
  · intro hov hne info hinfo
    exact (h.nextLast hov hne info hinfo).same fun other hmem =>
      hlast other (mem_last hinfo hmem)
  · intro hdecode other hmem
    rw [hrunning other hmem]
    exact h.decoded hdecode other hmem
  · intro hprefill other hmem
    rw [hlast other hmem]
    exact h.fresh hprefill other hmem

theorem mem_mergeBatch {store : ReqStore} {batch other : List PenaltyInfo} {info : PenaltyInfo}
    (h : info ∈ mergeBatch store batch other) :
    ∃ old ∈ batch, ∃ new ∈ other, info = old.mergeBatch store new := by
  obtain ⟨i, hi, rfl⟩ := List.getElem_of_mem h
  unfold mergeBatch at hi ⊢
  rw [List.length_zipWith, Nat.lt_min] at hi
  exact ⟨batch[i], List.getElem_mem hi.1, other[i], List.getElem_mem hi.2, List.getElem_zipWith⟩

theorem reqsOf_mergeBatch {batch other : List PenaltyInfo} {store : ReqStore} {uid : Nat}
    (h : uid ∈ reqsOf (mergeBatch store batch other)) :
    uid ∈ reqsOf batch ∨ uid ∈ reqsOf other := by
  obtain ⟨info, hinfo, huid⟩ := mem_reqsOf.mp h
  obtain ⟨old, hold, new, hnew, rfl⟩ := mem_mergeBatch hinfo
  rw [PenaltyInfo.reqs_mergeBatch, List.mem_append] at huid
  rcases huid with huid | huid
  · exact .inl (mem_reqsOf.mpr ⟨old, hold, huid⟩)
  · exact .inr (mem_reqsOf.mpr ⟨new, hnew, huid⟩)

theorem reqsOf_cleared (batch : List PenaltyInfo) : reqsOf (batch.map fun _ => {}) = [] := by
  unfold reqsOf
  rw [List.flatMap_map]
  exact List.flatMap_eq_nil_iff.mpr fun _ _ => rfl

theorem merge (h : Inv enableOverlap s) (enabled : Enabled enableOverlap s .merge) :
    Inv enableOverlap (next enableOverlap s .merge) := by
  obtain ⟨hfree, hcomplete, -⟩ := enabled
  unfold next
  constructor <;> dsimp only
  · intro info hinfo
    obtain ⟨old, hold, new, hnew, rfl⟩ := mem_mergeBatch hinfo
    exact (h.running old hold).mergeBatch (h.last new hnew)
  · intro info hinfo
    obtain ⟨old, -, rfl⟩ := List.mem_map.mp hinfo
    exact PenaltyInfo.follows_empty _
  · intro uid _
    rw [reqsOf_cleared]
    exact List.not_mem_nil
  · intro uid huid
    rcases reqsOf_mergeBatch huid with huid | huid
    · exact h.whole uid huid
    · exact hcomplete uid huid
  · intro uid huid
    rw [reqsOf_cleared] at huid
    cases huid
  · intro uid huid hpen
    rcases reqsOf_mergeBatch huid with huid | huid
    · exact h.bounded uid huid hpen
    · rw [h.start uid huid]
      exact Nat.zero_le _
  · exact h.overlap
  · intro hov _ info hinfo
    obtain ⟨old, hold, new, hnew, rfl⟩ := mem_mergeBatch hinfo
    have hold' := h.nextRunning hov (by rw [hfree]; decide) old hold
    have hnew' := h.nextLast hov (by rw [hfree]; decide) new hnew
    exact hold'.mergeBatch hnew'
  · intro _ _ info hinfo
    obtain ⟨old, -, rfl⟩ := List.mem_map.mp hinfo
    exact PenaltyInfo.next_empty _
  · intro hdecode
    rw [hfree] at hdecode
    cases hdecode
  · intro hprefill
    rw [hfree] at hprefill
    cases hprefill

/-- Before a decode step that meets its condition, the token that will be fed for a
request with penalties is the one after those that were. -/
theorem next_fed (h : Inv enableOverlap s) (free : s.awaited = .nothing)
    (met : enableOverlap = true → InPace s.store (reqsOf s.running)) {info : PenaltyInfo}
    (hinfo : info ∈ s.running) :
    List.Forall₂ (NextOutput s.store) info.reqs (info.fedOutputIds s.store enableOverlap) := by
  unfold PenaltyInfo.fedOutputIds
  cases hov : enableOverlap with
  | false => exact h.nextRunning hov (by rw [free]; decide) info hinfo
  | true =>
    rw [if_pos rfl, List.forall₂_map_right_iff, List.forall₂_same]
    intro uid huid _ hpen
    have hlen := met hov uid (mem_running hinfo huid) hpen
    have hne : (s.store uid).outputIds ≠ [] := by
      intro hnil
      rw [hnil] at hlen
      cases hlen
    refine ⟨(s.store uid).outputIds.dropLast, ?_, ?_⟩
    · unfold PenaltyReq.delayedOutputId
      rw [List.getLast?_eq_some_getLast hne]
      exact (List.dropLast_concat_getLast hne).symm
    · rw [List.length_dropLast, hlen, Nat.add_sub_cancel]

theorem store_decode {uid : Nat} (huid : uid ∈ reqsOf s.running) :
    (next enableOverlap s .decode).store uid = (s.store uid).decoded :=
  if_pos huid

theorem reqsOf_decode (enableOverlap : Bool) (s : PenaltyState) :
    reqsOf (next enableOverlap s .decode).running = reqsOf s.running := by
  show List.flatMap _ (List.map _ s.running) = List.flatMap _ s.running
  rw [List.flatMap_map]
  simp only [PenaltyInfo.reqs_prepareForDecode]

/-- After it, everything that was returned has been fed. -/
theorem decoded_length (h : Inv enableOverlap s) (free : s.awaited = .nothing)
    (met : enableOverlap = true → InPace s.store (reqsOf s.running)) {uid : Nat}
    (huid : uid ∈ reqsOf s.running) (hpen : (s.store uid).params.Penalized) :
    (s.store uid).outputIds.length = (s.store uid).decodeBatchIdx + 1 := by
  obtain ⟨info, hinfo, hmem⟩ := mem_reqsOf.mp huid
  have hnext := h.next_fed free met hinfo
  obtain ⟨i, hi, hget⟩ := List.getElem_of_mem hmem
  have hids := List.forall₂_iff_get.mp hnext
  have hid := hids.2 i hi (hids.1 ▸ hi)
  rw [List.get_eq_getElem, List.get_eq_getElem, hget] at hid
  obtain ⟨earlier, hout, hlen⟩ := hid (h.whole uid huid) hpen
  rw [hout, List.length_append, hlen]
  rfl

theorem decode (h : Inv enableOverlap s) (free : s.awaited = .nothing)
    (met : enableOverlap = true → InPace s.store (reqsOf s.running)) :
    Inv enableOverlap (next enableOverlap s .decode) := by
  have hlast : ∀ uid ∈ reqsOf s.last, (next enableOverlap s .decode).store uid = s.store uid :=
    fun uid huid => if_neg fun hmem => h.apart uid hmem huid
  constructor
  · intro info hinfo
    obtain ⟨old, hold, rfl⟩ := List.mem_map.mp hinfo
    apply (h.running old hold).prepareForDecode
    · apply forall₂_imp_mem (h.next_fed free met hold)
      intro uid huid id hid hpen
      exact hid.fed (h.whole uid (mem_running hold huid)) hpen
    · intro uid huid
      exact store_decode (mem_running hold huid)
  · intro info hinfo
    exact (h.last info hinfo).same fun uid huid => hlast uid (mem_last hinfo huid)
  · rw [reqsOf_decode]
    exact h.apart
  · intro uid huid
    rw [reqsOf_decode] at huid
    rw [store_decode huid]
    exact h.whole uid huid
  · intro uid huid
    rw [hlast uid huid]
    exact h.start uid huid
  · intro uid huid hpen
    rw [reqsOf_decode] at huid
    rw [store_decode huid] at hpen ⊢
    exact (h.decoded_length free met huid hpen).ge
  · intro hov
    show (if enableOverlap then Awaited.nothing else .decode) = .nothing
    rw [hov, if_pos rfl]
  · intro hov hne
    have hdecode : (next enableOverlap s .decode).awaited = .decode := by
      rw [hov]
      rfl
    exact absurd hdecode hne
  · intro hov _ info hinfo
    have hnext := h.nextLast hov (by rw [free]; decide) info hinfo
    exact hnext.same fun uid huid => hlast uid (mem_last hinfo huid)
  · intro _ uid huid hpen
    rw [reqsOf_decode] at huid
    rw [store_decode huid] at hpen ⊢
    exact h.decoded_length free met huid hpen
  · intro hprefill
    change (if enableOverlap then Awaited.nothing else .decode) = .prefill at hprefill
    split at hprefill <;> cases hprefill

theorem step (h : Inv enableOverlap s) {e : Event} (enabled : Enabled enableOverlap s e)
    (met : Meets enableOverlap s e) : Inv enableOverlap (next enableOverlap s e) := by
  cases e with
  | prefill groups isChunked => exact h.prefill enabled met
  | prefillResults tokens => exact h.prefillResults tokens enabled
  | decodeResults tokens => exact h.decodeResults tokens enabled
  | returned uid token => exact h.returned uid token enabled
  | filterRunning keepIndices => exact h.filterRunning keepIndices
  | filterLast keepIndices => exact h.filterLast keepIndices
  | retract uid => exact h.retract enabled
  | merge => exact h.merge enabled
  | decode => exact h.decode enabled met

theorem start_state (enableOverlap : Bool) (dpSize : Nat) (store : ReqStore) :
    Inv enableOverlap
      ⟨store, List.replicate dpSize {}, List.replicate dpSize {}, .nothing⟩ := by
  have hnone : reqsOf (List.replicate dpSize {}) = [] := by
    unfold reqsOf
    apply List.flatMap_eq_nil_iff.mpr
    intro info hinfo
    rw [List.eq_of_mem_replicate hinfo]
  have hfollows : ∀ info ∈ List.replicate dpSize ({} : PenaltyInfo), info.Follows store := by
    intro info hinfo
    rw [List.eq_of_mem_replicate hinfo]
    exact PenaltyInfo.follows_empty store
  have hnext : ∀ info ∈ List.replicate dpSize ({} : PenaltyInfo), info.Next store := by
    intro info hinfo
    rw [List.eq_of_mem_replicate hinfo]
    exact PenaltyInfo.next_empty store
  have hempty {P : Nat → Prop} : ∀ uid ∈ reqsOf (List.replicate dpSize {}), P uid := by
    rw [hnone]
    exact fun uid huid => by cases huid
  exact ⟨hfollows, hfollows, hempty, hempty, hempty, hempty, fun _ => rfl, fun _ _ => hnext,
    fun _ _ => hnext, fun _ => hempty, fun _ => hempty⟩

end Inv

theorem Run.inv {enableOverlap : Bool} {dpSize : Nat} {s : PenaltyState}
    (run : Run enableOverlap dpSize (Meets enableOverlap) s) : Inv enableOverlap s := by
  induction run with
  | start store _ => exact Inv.start_state enableOverlap dpSize store
  | step e _ enabled met ih => exact ih.step enabled met

/-- Before the forward pass of a decode step, the penalties of every request are those of
its own output tokens so far. -/
theorem Run.ownOutput {enableOverlap : Bool} {dpSize : Nat} {s : PenaltyState}
    (run : Run enableOverlap dpSize (Meets enableOverlap) s) (free : s.awaited = .nothing)
    (met : Meets enableOverlap s .decode) : OwnOutput (next enableOverlap s .decode) := by
  have hinv := run.inv
  intro info hinfo
  have hfollows := (hinv.decode free met).running info hinfo
  have hfilled := BatchedPenalizerOrchestrator.Follows.apply hfollows (by
    intro req hreq hpen
    obtain ⟨uid, huid, rfl⟩ := List.mem_map.mp hreq
    have hmem : uid ∈ reqsOf s.running := by
      rw [← Inv.reqsOf_decode enableOverlap s]
      exact Inv.mem_running hinfo huid
    rw [Inv.store_decode hmem] at hpen ⊢
    have hlen := hinv.decoded_length free met hmem hpen
    exact List.take_of_length_le hlen.le)
  unfold PenalizerClass.Filled at hfilled
  rw [List.forall₂_map_left_iff, List.length_map] at hfilled
  exact hfilled

/-! ### One request -/

/-- A request with a frequency penalty of one. -/
def plainReq : PenaltyReq where
  params := ⟨1, 0, 0, [], [], none⟩
  originInputIds := [9]
  nonempty := by decide
  outputIds := []
  decodeBatchIdx := 0
  isChunked := false

def startState : PenaltyState := ⟨fun _ => plainReq, [{}], [{}], .nothing⟩

/-- What the scheduler does with the one request that waits. -/
def enters (token : Nat) : List Event :=
  [.prefill [[0]] fun _ => false, .prefillResults fun _ => token, .merge]

/-- Its first decode step has counted its first token. -/
theorem ownOutput_firstDecode : OwnOutput
    (next false ((enters 5).foldl (next false) startState) .decode) := by
  have hstart : Run false 1 (Meets false) startState := .start _ fun _ => ⟨rfl, rfl⟩
  have hprefill := hstart.step (.prefill [[0]] fun _ => false)
    ⟨rfl, rfl, rfl, by decide, by decide⟩ fun _ _ _ => rfl
  have hresults := hprefill.step (.prefillResults fun _ => 5) rfl trivial
  have hmerged := hresults.step .merge ⟨rfl, by decide, rfl⟩ trivial
  exact hmerged.ownOutput rfl fun h => by cases h

/-- The request is retracted after two tokens and prefilled again. -/
def retraction : List Event :=
  enters 5 ++ [.decode, .decodeResults fun _ => 6, .filterRunning fun _ => [], .retract 0] ++ enters 7

/-- A request that was retracted is not penalized for the tokens before. -/
theorem forgets_retraction :
    ∃ s, Run false 1 (fun _ _ => True) s ∧ s.awaited = .nothing ∧
      ¬ OwnOutput (next false s .decode) := by
  refine ⟨retraction.foldl (next false) startState, ?_, rfl, ?_⟩
  · have hstart : Run false 1 (fun _ _ => True) startState := .start _ fun _ => ⟨rfl, rfl⟩
    have hprefill := hstart.step (.prefill [[0]] fun _ => false)
      ⟨rfl, rfl, rfl, by decide, by decide⟩ trivial
    have hresults := hprefill.step (.prefillResults fun _ => 5) rfl trivial
    have hmerged := hresults.step .merge ⟨rfl, by decide, rfl⟩ trivial
    have hdecode := hmerged.step .decode rfl trivial
    have hsecond := hdecode.step (.decodeResults fun _ => 6) rfl trivial
    have hfiltered := hsecond.step (.filterRunning fun _ => []) ⟨rfl, by
      intro rank info _
      exact ⟨List.nodup_nil, fun i hi => by cases hi⟩⟩ trivial
    have hretracted := hfiltered.step (.retract 0)
      (List.not_mem_nil : 0 ∉ ([] : List Nat)) trivial
    have hagain := hretracted.step (.prefill [[0]] fun _ => false)
      ⟨rfl, rfl, rfl, by decide, by decide⟩ trivial
    have hthird := hagain.step (.prefillResults fun _ => 7) rfl trivial
    exact hthird.step .merge ⟨rfl, by decide, rfl⟩ trivial
  · intro h
    have hrows := h _ (List.mem_singleton_self _)
    cases hrows with
    | cons hrow _ =>
      have hfive := hrow 5
      revert hfive
      decide +kernel

end SglJax.Sampling
