import SglJax.Sampling.PenaltyRows

/-! The orchestrator follows the requests of its rank through all of its operations, and
what it applies is the penalty of each request when all of its output was fed. -/
namespace SglJax.Sampling

open Foundation

theorem presence_penalized {params : PenaltyParams}
    (h : presencePenalizer.required params = true) : params.Penalized :=
  .inr (.inl (by simpa [presencePenalizer] using h))

theorem frequency_penalized {params : PenaltyParams}
    (h : frequencyPenalizer.required params = true) : params.Penalized :=
  .inl (by simpa [frequencyPenalizer] using h)

theorem minNewTokens_penalized {params : PenaltyParams}
    (h : minNewTokensPenalizer.required params = true) : params.Penalized :=
  .inr (.inr (by simpa [minNewTokensPenalizer] using h))

/-- A request without penalties gets nothing, whatever was fed for it. -/
theorem contributions_eq {req : PenaltyReq}
    (hfed : req.params.Penalized → req.fed = req.outputIds) (t : Nat) :
    0 + presencePenalizer.contribution req t + frequencyPenalizer.contribution req t +
      minNewTokensPenalizer.contribution req t = expectedPenalty req t := by
  by_cases hpen : req.params.Penalized
  · exact contributions_eq_expected (hfed hpen) t
  · have hpresence := presencePenalizer_neutral req.params
      (Bool.eq_false_iff.mpr fun h => hpen (presence_penalized h))
    have hfrequency := frequencyPenalizer_neutral req.params
      (Bool.eq_false_iff.mpr fun h => hpen (frequency_penalized h))
    have hlen := minNewTokensPenalizer_neutral req.params
      (Bool.eq_false_iff.mpr fun h => hpen (minNewTokens_penalized h))
    unfold PenalizerClass.contribution
    rw [hpresence, hfrequency, hlen]
    unfold PenaltyParams.Penalized at hpen
    rw [not_or, not_or, not_not, not_not, Nat.not_lt, Nat.le_zero] at hpen
    obtain ⟨hzero, hnone, hmin⟩ := hpen
    simp [expectedPenalty, hzero, hnone, hmin]

theorem forall₂_imp_mem {α β : Type} {R S : α → β → Prop} {as : List α} {bs : List β}
    (h : List.Forall₂ R as bs) (himp : ∀ a ∈ as, ∀ b, R a b → S a b) : List.Forall₂ S as bs := by
  induction h with
  | nil => exact .nil
  | cons hab _ ih =>
    exact .cons (himp _ List.mem_cons_self _ hab)
      (ih fun a ha => himp a (List.mem_cons_of_mem _ ha))

namespace BatchedPenalizerOrchestrator

/-- Each penalizer follows the requests, and none is prepared when none is required. -/
structure Follows (reqs : List PenaltyReq) (o : BatchedPenalizerOrchestrator) : Prop where
  presence : presencePenalizer.Follows reqs o.presence
  frequency : frequencyPenalizer.Follows reqs o.frequency
  minNewTokens : minNewTokensPenalizer.Follows reqs o.minNewTokens
  idle : o.isRequired = false → o.presence.isPrepared = false ∧ o.frequency.isPrepared = false ∧
    o.minNewTokens.isPrepared = false

section Idle

variable {κ σ : Type} {cls : PenalizerClass κ σ} {reqs : List PenaltyReq} {p : BatchedPenalizer κ σ}

theorem prepareIfRequired_idle {params : List PenaltyParams} (h : cls.isRequired params = false) :
    (cls.prepareIfRequired params).isPrepared = false := by
  unfold PenalizerClass.prepareIfRequired
  rw [h]
  rfl

theorem filter_idle {params : List PenaltyParams} (h : cls.isRequired params = false)
    (keepIndices : List Nat) : (cls.filter params keepIndices p).isPrepared = false := by
  unfold PenalizerClass.filter
  rw [h]
  rfl

theorem cumulate_idle (h : p.isPrepared = false) (ids : List Nat) :
    cls.cumulateOutputTokens ids p = p := by
  unfold PenalizerClass.cumulateOutputTokens
  rw [h]
  rfl

/-- A penalizer that is not prepared is needed by none of the requests, so by none of
those that are kept. -/
theorem follows_picked_idle (h : cls.Follows reqs p) (hidle : p.isPrepared = false)
    (keepIndices : List Nat) : cls.Follows (picked reqs keepIndices) p := by
  constructor
  · intro hneeds
    obtain ⟨req, hreq, hreqNeeds⟩ := PenalizerClass.isRequired_iff.mp hneeds
    exact h.prepared (PenalizerClass.isRequired_iff.mpr ⟨req, mem_of_mem_picked hreq, hreqNeeds⟩)
  · intro hprep
    rw [hidle] at hprep
    cases hprep

end Idle

theorem anyRequired_eq_false {params : List PenaltyParams} (h : anyRequired params = false) :
    presencePenalizer.isRequired params = false ∧ frequencyPenalizer.isRequired params = false ∧
      minNewTokensPenalizer.isRequired params = false := by
  unfold anyRequired at h
  rw [Bool.or_eq_false_iff, Bool.or_eq_false_iff] at h
  exact ⟨h.1.1, h.1.2, h.2⟩

variable {reqs reqs' : List PenaltyReq} {o o' : BatchedPenalizerOrchestrator}

theorem follows_init (h : ∀ req ∈ reqs, req.fed = []) :
    Follows reqs (init (reqs.map (·.params))) where
  presence := PenalizerClass.follows_init h
  frequency := PenalizerClass.follows_init h
  minNewTokens := PenalizerClass.follows_init h
  idle hnone := by
    obtain ⟨hpresence, hfrequency, hlen⟩ := anyRequired_eq_false hnone
    exact ⟨prepareIfRequired_idle hpresence, prepareIfRequired_idle hfrequency,
      prepareIfRequired_idle hlen⟩

namespace Follows

theorem congr (h : Follows reqs o) (hsame : List.Forall₂ (fun req req' =>
    req'.params = req.params ∧ (req.params.Penalized → req'.fed = req.fed)) reqs reqs') :
    Follows reqs' o where
  presence := h.presence.congr (hsame.imp fun _ _ heq =>
    ⟨heq.1, fun hneeds => heq.2 (presence_penalized hneeds)⟩)
  frequency := h.frequency.congr (hsame.imp fun _ _ heq =>
    ⟨heq.1, fun hneeds => heq.2 (frequency_penalized hneeds)⟩)
  minNewTokens := h.minNewTokens.congr (hsame.imp fun _ _ heq =>
    ⟨heq.1, fun hneeds => heq.2 (minNewTokens_penalized hneeds)⟩)
  idle := h.idle

theorem cumulate {ids : List Nat} (h : Follows reqs o) (hnext : List.Forall₂ (fun req id =>
    req.params.Penalized → req.decoded.fed = req.fed ++ [id]) reqs ids) :
    Follows (reqs.map PenaltyReq.decoded) (o.cumulateOutputTokens ids) where
  presence := h.presence.cumulate (hnext.imp fun _ _ hid hneeds => hid (presence_penalized hneeds))
  frequency :=
    h.frequency.cumulate (hnext.imp fun _ _ hid hneeds => hid (frequency_penalized hneeds))
  minNewTokens :=
    h.minNewTokens.cumulate (hnext.imp fun _ _ hid hneeds => hid (minNewTokens_penalized hneeds))
  idle hnone := by
    obtain ⟨hpresence, hfrequency, hlen⟩ := h.idle hnone
    unfold cumulateOutputTokens
    dsimp only
    rw [cumulate_idle hpresence, cumulate_idle hfrequency, cumulate_idle hlen]
    exact ⟨hpresence, hfrequency, hlen⟩

/-- Nothing is fed to an orchestrator that is not required, and nothing is lost. -/
theorem cumulate_of_idle (h : Follows reqs o) (hnone : o.isRequired = false) (ids : List Nat) :
    o.cumulateOutputTokens ids = o := by
  obtain ⟨hpresence, hfrequency, hlen⟩ := h.idle hnone
  unfold cumulateOutputTokens
  rw [cumulate_idle hpresence, cumulate_idle hfrequency, cumulate_idle hlen]

theorem filter (h : Follows reqs o) {keepIndices : List Nat} (hne : keepIndices ≠ []) :
    Follows (picked reqs keepIndices)
      (o.filter ((picked reqs keepIndices).map (·.params)) keepIndices) := by
  unfold BatchedPenalizerOrchestrator.filter
  split
  · rename_i hnone
    obtain ⟨hpresence, hfrequency, hlen⟩ := h.idle (by simpa using hnone)
    exact ⟨follows_picked_idle h.presence hpresence _, follows_picked_idle h.frequency hfrequency _,
      follows_picked_idle h.minNewTokens hlen _, h.idle⟩
  · rw [if_neg (by simpa using hne)]
    refine ⟨h.presence.filter _, h.frequency.filter _, h.minNewTokens.filter _, fun hnone => ?_⟩
    obtain ⟨hpresence, hfrequency, hlen⟩ := anyRequired_eq_false hnone
    exact ⟨filter_idle hpresence _, filter_idle hfrequency _, filter_idle hlen _⟩

theorem merge (h : Follows reqs o) (h' : Follows reqs' o') :
    Follows (reqs ++ reqs') (o.merge (reqs.map (·.params)) (reqs'.map (·.params)) o') := by
  unfold BatchedPenalizerOrchestrator.merge
  split
  · rename_i hnone
    rw [Bool.and_eq_true, Bool.not_eq_true', Bool.not_eq_true'] at hnone
    obtain ⟨hpresence, hfrequency, hlen⟩ := h.idle hnone.1
    obtain ⟨hpresence', hfrequency', hlen'⟩ := h'.idle hnone.2
    have hkeep {κ σ : Type} {cls : PenalizerClass κ σ} {p p' : BatchedPenalizer κ σ}
        (hp : cls.Follows reqs p) (hp' : cls.Follows reqs' p') (hidle : p.isPrepared = false)
        (hidle' : p'.isPrepared = false) : cls.Follows (reqs ++ reqs') p := by
      have hboth := hp.merge hp'
      unfold PenalizerClass.merge at hboth
      rwa [hidle, hidle'] at hboth
    exact ⟨hkeep h.presence h'.presence hpresence hpresence',
      hkeep h.frequency h'.frequency hfrequency hfrequency',
      hkeep h.minNewTokens h'.minNewTokens hlen hlen', h.idle⟩
  · exact ⟨h.presence.merge h'.presence, h.frequency.merge h'.frequency,
      h.minNewTokens.merge h'.minNewTokens, fun hnone => by cases hnone⟩

/-- When each request was fed its whole output, the buffer holds what it should get. -/
theorem apply (h : Follows reqs o)
    (hfed : ∀ req ∈ reqs, req.params.Penalized → req.fed = req.outputIds) :
    PenalizerClass.Filled reqs expectedPenalty (o.apply reqs.length) := by
  have hzeros : PenalizerClass.Filled reqs (fun _ _ => 0)
      (List.replicate reqs.length fun _ => 0) := by
    unfold PenalizerClass.Filled
    have hmap : List.replicate reqs.length (fun _ => 0 : PenaltyRow) = reqs.map fun _ _ => 0 := by
      rw [List.map_const']
    rw [hmap, List.forall₂_map_right_iff, List.forall₂_same]
    intro req _ t
    rfl
  have hsum := ((hzeros.addTo h.presence presencePenalizer_neutral).addTo h.frequency
    frequencyPenalizer_neutral).addTo h.minNewTokens minNewTokensPenalizer_neutral
  have hout : o.apply reqs.length = minNewTokensPenalizer.addTo o.minNewTokens
      (frequencyPenalizer.addTo o.frequency (presencePenalizer.addTo o.presence
        (List.replicate reqs.length fun _ => 0))) := by
    unfold BatchedPenalizerOrchestrator.apply
    dsimp only
    cases hreq : o.isRequired with
    | true => rfl
    | false =>
      obtain ⟨hpresence, hfrequency, hlen⟩ := h.idle hreq
      unfold PenalizerClass.addTo
      rw [hpresence, hfrequency, hlen]
      rfl
  rw [hout]
  apply forall₂_imp_mem hsum
  intro req hreq row hrow t
  rw [hrow t]
  exact contributions_eq (hfed req hreq) t

end Follows
end BatchedPenalizerOrchestrator
end SglJax.Sampling
