import SglJax.Sampling.PenaltyRuns

/-! The rows of the penalizers follow the requests of their rank: each operation keeps
that a prepared row holds the coefficient of its request, and the counter of the tokens
that were fed for it if the request needs the penalizer. -/
namespace SglJax.Sampling

open Foundation

/-- The output tokens that decode steps have been prepared with. -/
def PenaltyReq.fed (req : PenaltyReq) : List Nat := req.outputIds.take req.decodeBatchIdx

/-- `prepare_for_decode` counts the step. -/
def PenaltyReq.decoded (req : PenaltyReq) : PenaltyReq :=
  { req with decodeBatchIdx := req.decodeBatchIdx + 1 }

theorem forall₂_of_map_eq {α β γ : Type} {f : α → γ} {g : β → γ} {R : α → β → Prop} {as : List α}
    {bs : List β} (h : List.Forall₂ R as bs) (heq : ∀ a b, R a b → f a = g b) :
    as.map f = bs.map g := by
  induction h with
  | nil => rfl
  | cons hab _ ih => rw [List.map_cons, List.map_cons, heq _ _ hab, ih]

namespace PenalizerClass

variable {κ σ : Type}

/-- What the row of a request holds. -/
structure RowOk (cls : PenalizerClass κ σ) (req : PenaltyReq) (row : κ × σ) : Prop where
  coefficient : row.1 = cls.coefficient req.params
  counter : cls.required req.params = true → row.2 = req.fed.foldl cls.feed cls.start

/-- The penalizer is prepared when it is needed, and then has a row for each
request. -/
structure Follows (cls : PenalizerClass κ σ) (reqs : List PenaltyReq) (p : BatchedPenalizer κ σ) :
    Prop where
  prepared : cls.isRequired (reqs.map (·.params)) = true → p.isPrepared = true
  rows : p.isPrepared = true → List.Forall₂ cls.RowOk reqs p.rows

variable {cls : PenalizerClass κ σ} {reqs reqs' : List PenaltyReq} {p p' : BatchedPenalizer κ σ}

theorem isRequired_iff : cls.isRequired (reqs.map (·.params)) = true ↔
    ∃ req ∈ reqs, cls.required req.params = true := by
  unfold isRequired
  simp

/-- New rows are right for requests for which nothing was fed that counts. -/
theorem newRows (h : ∀ req ∈ reqs, cls.required req.params = true → req.fed = []) :
    List.Forall₂ cls.RowOk reqs
      ((reqs.map (·.params)).map fun params => (cls.coefficient params, cls.start)) := by
  rw [List.map_map, List.forall₂_map_right_iff, List.forall₂_same]
  intro req hreq
  refine ⟨rfl, fun hneeds => ?_⟩
  rw [h req hreq hneeds]
  rfl

theorem follows_init (h : ∀ req ∈ reqs, req.fed = []) :
    cls.Follows reqs (cls.prepareIfRequired (reqs.map (·.params))) := by
  unfold prepareIfRequired
  split
  · exact ⟨fun _ => rfl, fun _ => newRows fun req hreq _ => h req hreq⟩
  · rename_i hnone
    exact ⟨fun hneeds => absurd hneeds hnone, fun h => by cases h⟩

/-- For each request that needs the penalizer, the id is the output token that the next
step feeds. -/
def NextIds (cls : PenalizerClass κ σ) (reqs : List PenaltyReq) (ids : List Nat) : Prop :=
  List.Forall₂ (fun req id => cls.required req.params = true → req.decoded.fed = req.fed ++ [id])
    reqs ids

theorem NextIds.feed {ids : List Nat} {rows : List (κ × σ)} (hnext : NextIds cls reqs ids)
    (hrows : List.Forall₂ cls.RowOk reqs rows) :
    List.Forall₂ cls.RowOk (reqs.map PenaltyReq.decoded)
      (List.zipWith (fun row id => (row.1, cls.feed row.2 id)) rows ids) := by
  unfold NextIds at hnext
  induction hnext generalizing rows with
  | nil =>
    cases hrows
    exact .nil
  | cons hid _ ih =>
    cases hrows with
    | cons hrow hrest =>
      refine .cons ⟨hrow.coefficient, fun hneeds => ?_⟩ (ih hrest)
      rw [hid hneeds, List.foldl_append, ← hrow.counter hneeds]
      rfl

namespace Follows

theorem congr (h : cls.Follows reqs p) (hsame : List.Forall₂ (fun req req' =>
    req'.params = req.params ∧ (cls.required req.params = true → req'.fed = req.fed)) reqs reqs') :
    cls.Follows reqs' p := by
  constructor
  · intro hneeds
    apply h.prepared
    rw [forall₂_of_map_eq hsame fun req req' heq => heq.1.symm]
    exact hneeds
  · intro hprep
    have hrows := h.rows hprep
    generalize p.rows = rows at hrows
    clear h
    induction hsame generalizing rows with
    | nil => exact hrows
    | cons heq _ ih =>
      cases hrows with
      | cons hrow hrest =>
        refine .cons ⟨?_, fun hneeds => ?_⟩ (ih _ hrest)
        · rw [heq.1]
          exact hrow.coefficient
        · rw [heq.1] at hneeds
          rw [heq.2 hneeds]
          exact hrow.counter hneeds

/-- Each request is fed the output token that follows those it was fed. -/
theorem cumulate {ids : List Nat} (h : cls.Follows reqs p) (hnext : NextIds cls reqs ids) :
    cls.Follows (reqs.map PenaltyReq.decoded) (cls.cumulateOutputTokens ids p) := by
  unfold cumulateOutputTokens
  split
  · rename_i hprep
    exact ⟨fun _ => hprep, fun _ => hnext.feed (h.rows hprep)⟩
  · rename_i hprep
    refine ⟨?_, fun hprep' => absurd hprep' hprep⟩
    rw [List.map_map]
    exact h.prepared

theorem picked_rows {idx : List Nat} {rows : List (κ × σ)} (h : List.Forall₂ cls.RowOk reqs rows) :
    List.Forall₂ cls.RowOk (picked reqs idx) (picked rows idx) :=
  Beside.some_iff.mp ((Beside.some_iff.mpr h).picked idx)

theorem filter (h : cls.Follows reqs p) (keepIndices : List Nat) :
    cls.Follows (picked reqs keepIndices)
      (cls.filter ((picked reqs keepIndices).map (·.params)) keepIndices p) := by
  unfold PenalizerClass.filter
  split
  · rename_i hneeds
    obtain ⟨req, hreq, hreqNeeds⟩ := isRequired_iff.mp hneeds
    have hprep := h.prepared (isRequired_iff.mpr ⟨req, mem_of_mem_picked hreq, hreqNeeds⟩)
    rw [if_pos hprep]
    exact ⟨fun _ => hprep, fun _ => picked_rows (h.rows hprep)⟩
  · rename_i hnone
    exact ⟨fun hneeds => absurd hneeds hnone, fun h => by cases h⟩

/-- Preparing a penalizer that was not needed so far. -/
theorem prepare (h : cls.Follows reqs p) :
    List.Forall₂ cls.RowOk reqs (cls.prepare (reqs.map (·.params)) p).rows := by
  unfold PenalizerClass.prepare
  split
  · rename_i hprep
    exact h.rows hprep
  · rename_i hprep
    apply newRows
    intro req hreq hneeds
    exact absurd (h.prepared (isRequired_iff.mpr ⟨req, hreq, hneeds⟩)) hprep

theorem merge (h : cls.Follows reqs p) (h' : cls.Follows reqs' p') :
    cls.Follows (reqs ++ reqs')
      (cls.merge (reqs.map (·.params)) (reqs'.map (·.params)) p p') := by
  unfold PenalizerClass.merge
  split
  · rename_i hnone
    rw [Bool.and_eq_true, Bool.not_eq_true', Bool.not_eq_true'] at hnone
    obtain ⟨hprep, hprep'⟩ := hnone
    constructor
    · intro hneeds
      obtain ⟨req, hreq, hreqNeeds⟩ := isRequired_iff.mp hneeds
      rcases List.mem_append.mp hreq with hreq | hreq
      · exact h.prepared (isRequired_iff.mpr ⟨req, hreq, hreqNeeds⟩)
      · have hset := h'.prepared (isRequired_iff.mpr ⟨req, hreq, hreqNeeds⟩)
        rw [hprep'] at hset
        cases hset
    · intro hset
      rw [hprep] at hset
      cases hset
  · exact ⟨fun _ => rfl, fun _ => List.rel_append h.prepare h'.prepare⟩

end Follows

/-- What the penalizer adds for a request. -/
def contribution (cls : PenalizerClass κ σ) (req : PenaltyReq) (t : Nat) : WithBot ℚ :=
  cls.penalty (cls.coefficient req.params) (req.fed.foldl cls.feed cls.start) t

/-- A request that does not need the penalizer gets nothing from it. -/
def Neutral (cls : PenalizerClass κ σ) : Prop :=
  ∀ params, cls.required params = false → ∀ count t, cls.penalty (cls.coefficient params) count t = 0

theorem RowOk.penalty {req : PenaltyReq} {row : κ × σ} (h : cls.RowOk req row)
    (hneutral : cls.Neutral) (t : Nat) : cls.penalty row.1 row.2 t = cls.contribution req t := by
  unfold contribution
  rw [h.coefficient]
  cases hneeds : cls.required req.params with
  | true => rw [h.counter hneeds]
  | false => rw [hneutral _ hneeds, hneutral _ hneeds]

/-- The rows of the buffer, as far as they are filled. -/
def Filled (reqs : List PenaltyReq) (value : PenaltyReq → Nat → WithBot ℚ) (out : List PenaltyRow) :
    Prop :=
  List.Forall₂ (fun req row => ∀ t, row t = value req t) reqs out

theorem Filled.addTo {value : PenaltyReq → Nat → WithBot ℚ} {out : List PenaltyRow}
    (hout : Filled reqs value out) (h : cls.Follows reqs p) (hneutral : cls.Neutral) :
    Filled reqs (fun req t => value req t + cls.contribution req t) (cls.addTo p out) := by
  unfold PenalizerClass.addTo
  split
  · rename_i hprep
    have hrows := h.rows hprep
    generalize p.rows = rows at hrows
    unfold Filled at hout ⊢
    clear h
    induction hout generalizing rows with
    | nil =>
      cases hrows
      exact .nil
    | cons hrow _ ih =>
      cases hrows with
      | cons hok hrest =>
        refine .cons (fun t => ?_) (ih _ hrest)
        dsimp only
        rw [hrow t, hok.penalty hneutral]
  · rename_i hprep
    unfold Filled at hout ⊢
    have hzero : ∀ req ∈ reqs, ∀ t, cls.contribution req t = 0 := by
      intro req hreq t
      apply hneutral
      rw [Bool.eq_false_iff]
      intro hneeds
      exact hprep (h.prepared (isRequired_iff.mpr ⟨req, hreq, hneeds⟩))
    clear h
    induction hout with
    | nil => exact .nil
    | cons hrow _ ih =>
      refine .cons (fun t => ?_) (ih fun req hreq => hzero req (List.mem_cons_of_mem _ hreq))
      dsimp only
      rw [hzero _ List.mem_cons_self, add_zero]
      exact hrow t

end PenalizerClass

/-! ### The three classes -/

theorem frequencyPenalizer_neutral : frequencyPenalizer.Neutral := by
  intro params hnone count t
  have hzero : params.frequencyPenalty = 0 := by simpa [frequencyPenalizer] using hnone
  simp [frequencyPenalizer, hzero]

theorem presencePenalizer_neutral : presencePenalizer.Neutral := by
  intro params hnone seen t
  have hzero : params.presencePenalty = 0 := by simpa [presencePenalizer] using hnone
  simp [presencePenalizer, hzero]

theorem minNewTokensPenalizer_neutral : minNewTokensPenalizer.Neutral := by
  intro params hnone len t
  have hzero : params.minNewTokens = 0 := by simpa [minNewTokensPenalizer] using hnone
  simp [minNewTokensPenalizer, hzero]

theorem foldl_count (tokens : List Nat) (count : Nat → Nat) (t : Nat) :
    tokens.foldl frequencyPenalizer.feed count t = count t + tokens.count t := by
  induction tokens generalizing count with
  | nil => rfl
  | cons token tokens ih =>
    rw [List.foldl_cons, ih, List.count_cons]
    show Function.update count token (count token + 1) t + _ = _
    by_cases ht : t = token
    · subst ht
      rw [Function.update_self, if_pos (beq_self_eq_true t)]
      omega
    · rw [Function.update_of_ne ht, if_neg (by simpa using fun h : token = t => ht h.symm)]
      omega

theorem foldl_seen (tokens : List Nat) (seen : Nat → Bool) (t : Nat) :
    tokens.foldl presencePenalizer.feed seen t = (seen t || decide (0 < tokens.count t)) := by
  induction tokens generalizing seen with
  | nil => simp
  | cons token tokens ih =>
    rw [List.foldl_cons, ih, List.count_cons]
    show (Function.update seen token true t || _) = _
    by_cases ht : t = token
    · subst ht
      simp
    · rw [Function.update_of_ne ht, if_neg (by simpa using fun h : token = t => ht h.symm)]
      rfl

theorem foldl_len (tokens : List Nat) (len : Nat) :
    tokens.foldl minNewTokensPenalizer.feed len = len + tokens.length := by
  induction tokens generalizing len with
  | nil => rfl
  | cons token tokens ih =>
    rw [List.foldl_cons, ih, List.length_cons]
    show len + 1 + _ = _
    omega

/-- When everything was fed, the three together are what the request should get. -/
theorem contributions_eq_expected {req : PenaltyReq} (hfed : req.fed = req.outputIds) (t : Nat) :
    0 + presencePenalizer.contribution req t + frequencyPenalizer.contribution req t +
      minNewTokensPenalizer.contribution req t = expectedPenalty req t := by
  have hpresence : presencePenalizer.contribution req t =
      (((if 0 < req.outputIds.count t then 1 else 0 : ℚ) * -req.params.presencePenalty : ℚ) :
        WithBot ℚ) := by
    show (((if _ then 1 else 0 : ℚ) * _ : ℚ) : WithBot ℚ) = _
    rw [hfed, foldl_seen]
    simp [presencePenalizer]
  have hfrequency : frequencyPenalizer.contribution req t =
      (((req.outputIds.count t : ℚ) * -req.params.frequencyPenalty : ℚ) : WithBot ℚ) := by
    show (((req.fed.foldl frequencyPenalizer.feed frequencyPenalizer.start t : Nat) : ℚ) *
      -req.params.frequencyPenalty : ℚ) = (_ : WithBot ℚ)
    rw [hfed, foldl_count]
    simp [frequencyPenalizer]
  have hlen : minNewTokensPenalizer.contribution req t =
      if req.outputIds.length < req.params.minNewTokens ∧ t ∈ req.params.stopTokens then ⊥
      else 0 := by
    show (if _ then ⊥ else 0 : WithBot ℚ) = _
    rw [hfed, foldl_len]
    simp [minNewTokensPenalizer]
  unfold expectedPenalty
  rw [hpresence, hfrequency, hlen, zero_add, ← WithBot.coe_add]
  congr 2
  ring

end SglJax.Sampling
