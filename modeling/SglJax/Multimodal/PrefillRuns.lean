import SglJax.Multimodal.PrefillEmbeddings
import SglJax.Multimodal.VisionLanes

/-! Prefills over time. A prefill is scheduled against the pool as it is then, and executed
later, when others have been executed in between and the pool may have been cleared. -/
namespace SglJax.Multimodal

open Lora (Mat)
open Foundation

variable {F K : Type}

/-- A model with encoders, and how many lanes its encoders have. -/
structure InModelMultimodal (F K : Type) where
  hidden : Nat
  deepstackVisualLayers : Nat
  encodeFuncs : EncodeFuncs F K
  numEncoderLanes : Nat

/-- The columns of an encoder's output. -/
def InModelMultimodal.packedHidden (model : InModelMultimodal F K) : Nat :=
  model.hidden + model.hidden * model.deepstackVisualLayers

/-- The pool, the prefills that were scheduled, and what the executed ones came to. -/
structure PrefillState (F K : Type) where
  pool : Option (EmbeddingPool K)
  pending : List (Prefill F K × Except MultimodalError (Option (MultimodalBatch F)))
  executed : List (Prefill F K × Except MultimodalError (Embedded K))

inductive PrefillOp (F K : Type) where
  | schedule (prefill : Prefill F K)
  /-- One of the scheduled prefills, by its place among them. -/
  | execute (i : Nat)
  | flush

namespace PrefillOp

variable [Zero K] (model : InModelMultimodal F K)

def step (s : PrefillState F K) : PrefillOp F K → PrefillState F K
  | .schedule prefill => { s with
      pending := s.pending ++ [(prefill, buildMultimodalBatch (some prefill.reqsInfo)
        prefill.dpSize true prefill.perDpToken s.pool model.numEncoderLanes)] }
  | .execute i =>
    match s.pending[i]? with
    | none => s
    | some (prefill, .error error) => { s with
        pending := s.pending.eraseIdx i
        executed := s.executed ++ [(prefill, .error error)] }
    | some (prefill, .ok batch) =>
      match embedMultimodalInputs batch prefill.text model.deepstackVisualLayers
        model.encodeFuncs s.pool with
      | .ok (e, pool) => {
          pool := pool
          pending := s.pending.eraseIdx i
          executed := s.executed ++ [(prefill, .ok e)] }
      | .error error => { s with
          pending := s.pending.eraseIdx i
          executed := s.executed ++ [(prefill, .error error)] }
  | .flush => { s with pool := s.pool.map EmbeddingPool.clear }

def run (s : PrefillState F K) (ops : List (PrefillOp F K)) : PrefillState F K :=
  ops.foldl (step model) s

/-- What is kept over a run. A scheduled prefill has all its tasks, and an executed one shows
all its rows. -/
structure Sound (servable : MultimodalDataItem F → Prop)
    (output : MultimodalDataItem F → List (List K)) (s : PrefillState F K) : Prop where
  pool : ∀ p ∈ s.pool, Cached servable model.packedHidden output p
  pending : ∀ q ∈ s.pending, q.1.Valid servable model.hidden ∧
    ((q.1.tasks = [] ∧ q.2 = .ok none) ∨ (q.1.tasks ≠ [] ∧
      ∃ batch cached, q.2 = .ok (some batch) ∧ batch.Holds model.numEncoderLanes q.1.tasks cached))
  executed : ∀ q ∈ s.executed, ∃ e, q.2 = .ok e ∧
    e.Shows model.hidden model.deepstackVisualLayers output q.1

variable {model} {servable : MultimodalDataItem F → Prop}
  {output : MultimodalDataItem F → List (List K)} {s : PrefillState F K}

theorem Sound.schedule (h : Sound model servable output s) (hlanes : 0 < model.numEncoderLanes)
    {prefill : Prefill F K} (hvalid : prefill.Valid servable model.hidden) :
    Sound model servable output (step model s (.schedule prefill)) where
  pool := h.pool
  executed := h.executed
  pending := by
    intro q hq
    rcases List.mem_append.mp hq with hq | hq
    · exact h.pending q hq
    · rw [List.mem_singleton.mp hq]
      refine ⟨hvalid, (buildMultimodalBatch_spec prefill.dpSize prefill.perDpToken hlanes).imp_right
        fun ⟨hne, batch, hbuild, hholds⟩ => ⟨hne, batch, _, hbuild, hholds⟩⟩

/-- Executing a scheduled prefill raises no error. -/
theorem Sound.embed (h : Sound model servable output s)
    (hencodes : Encodes model.encodeFuncs servable model.numEncoderLanes model.packedHidden
      output)
    (htell : HashesTell servable output)
    {q : Prefill F K × Except MultimodalError (Option (MultimodalBatch F))} (hq : q ∈ s.pending) :
    ∃ batch e pool, q.2 = .ok batch ∧
      embedMultimodalInputs batch q.1.text model.deepstackVisualLayers model.encodeFuncs s.pool =
        .ok (e, pool) ∧
      e.Shows model.hidden model.deepstackVisualLayers output q.1 ∧
      ∀ p ∈ pool, Cached servable model.packedHidden output p := by
  obtain ⟨hvalid, ⟨hempty, hbatch⟩ | ⟨hne, batch, cached, hbatch, hholds⟩⟩ := h.pending q hq
  · obtain ⟨e, hrun, hshows⟩ := embed_none hvalid.cols hempty model.encodeFuncs s.pool
    exact ⟨none, e, s.pool, hbatch, hrun, hshows, h.pool⟩
  · obtain ⟨e, pool, hrun, hshows, hcached⟩ := embed_some hencodes htell hvalid hholds hne h.pool
    exact ⟨some batch, e, pool, hbatch, hrun, hshows, hcached⟩

theorem Sound.execute (h : Sound model servable output s)
    (hencodes : Encodes model.encodeFuncs servable model.numEncoderLanes model.packedHidden
      output)
    (htell : HashesTell servable output) (i : Nat) :
    Sound model servable output (step model s (.execute i)) := by
  cases hget : s.pending[i]? with
  | none =>
    simp only [step, hget]
    exact h
  | some q =>
    obtain ⟨batch, e, pool, hbatch, hrun, hshows, hcached⟩ :=
      h.embed hencodes htell (List.mem_of_getElem? hget)
    obtain ⟨prefill, scheduled⟩ := q
    dsimp only at hbatch hrun hshows
    subst hbatch
    simp only [step, hget, hrun]
    refine ⟨hcached, fun q hq => h.pending q (List.mem_of_mem_eraseIdx hq), fun q hq => ?_⟩
    rcases List.mem_append.mp hq with hq | hq
    · exact h.executed q hq
    · rw [List.mem_singleton.mp hq]
      exact ⟨e, rfl, hshows⟩

theorem Sound.flush (h : Sound model servable output s) :
    Sound model servable output (step model s .flush) where
  pending := h.pending
  executed := h.executed
  pool := by
    intro p hp
    obtain ⟨pool, hpool, rfl⟩ := Option.map_eq_some_iff.mp hp
    exact (h.pool pool hpool).clear

theorem Sound.run
    (hencodes : Encodes model.encodeFuncs servable model.numEncoderLanes model.packedHidden
      output)
    (htell : HashesTell servable output) (hlanes : 0 < model.numEncoderLanes)
    (h : Sound model servable output s) (ops : List (PrefillOp F K))
    (hvalid : ∀ prefill, .schedule prefill ∈ ops → prefill.Valid servable model.hidden) :
    Sound model servable output (run model s ops) := by
  induction ops generalizing s with
  | nil => exact h
  | cons op ops ih =>
    have hstep : Sound model servable output (step model s op) := by
      cases op with
      | schedule prefill => exact h.schedule hlanes (hvalid prefill List.mem_cons_self)
      | execute i => exact h.execute hencodes htell i
      | flush => exact h.flush
    exact ih hstep fun prefill hp => hvalid prefill (List.mem_cons_of_mem op hp)

/-- The server before its first request, with a pool or without one. -/
structure Starts (model : InModelMultimodal F K) (s : PrefillState F K) : Prop where
  pool : ∀ p ∈ s.pool, ∃ numPages pageSize, 0 < pageSize ∧
    p = .init numPages pageSize model.packedHidden
  pending : s.pending = []
  executed : s.executed = []

theorem Starts.sound (h : Starts model s) : Sound model servable output s where
  pool := by
    intro p hp
    obtain ⟨numPages, pageSize, hpage, rfl⟩ := h.pool p hp
    exact ⟨EmbeddingPool.init_partitioned _ _ hpage, rfl, fun e he => by cases he⟩
  pending := by simp [h.pending]
  executed := by simp [h.executed]

/-- However prefills are scheduled and executed, and whatever is evicted or flushed in
between, every one of them is executed without an error and shows the rows of its items at
their placeholders and the text at all other tokens. -/
theorem run_shows_items
    (hencodes : Encodes model.encodeFuncs servable model.numEncoderLanes model.packedHidden
      output)
    (htell : HashesTell servable output) (hlanes : 0 < model.numEncoderLanes)
    (hstart : Starts model s) (ops : List (PrefillOp F K))
    (hvalid : ∀ prefill, .schedule prefill ∈ ops → prefill.Valid servable model.hidden) :
    ∀ q ∈ (run model s ops).executed, ∃ e, q.2 = .ok e ∧
      e.Shows model.hidden model.deepstackVisualLayers output q.1 :=
  (Sound.run hencodes htell hlanes hstart.sound ops hvalid).executed

/-- A model with one layer of deepstack. -/
def patchModel : InModelMultimodal Nat Nat where
  hidden := 1
  deepstackVisualLayers := 1
  encodeFuncs := patchEncoder.encodeFuncs
  numEncoderLanes := 2

/-- Two tokens of a prompt with two patches, from `start` on. -/
def chunk (start : Nat) : Prefill Nat Nat where
  reqsInfo := [⟨[⟨start, 2, some [twoPatches]⟩], none, none, by simp, by simp⟩]
  dpSize := 1
  perDpToken := 2
  text := PoolOp.column [start, start + 1]

/-- The prompt in two chunks, which are both scheduled before the first is executed. -/
def chunkOps : List (PrefillOp Nat Nat) :=
  [.schedule (chunk 0), .schedule (chunk 2), .execute 0, .execute 0]

def chunkStart : PrefillState Nat Nat := ⟨some (.init 2 1 2), [], []⟩

theorem chunk_valid (start : Nat) :
    (chunk start).Valid (fun item => item = twoPatches) patchModel.hidden := by
  have hwindows : (chunk start).windows = [⟨0, start, start + 2, [twoPatches]⟩] := rfl
  refine ⟨?_, rfl, rfl, ?_, ?_⟩
  · intro info hinfo
    rw [List.mem_singleton.mp hinfo]
    exact le_rfl
  · intro w hw item hitem
    rw [hwindows] at hw
    rw [List.mem_singleton.mp hw] at hitem
    exact List.mem_singleton.mp hitem
  · intro w hw
    rw [hwindows] at hw
    rw [List.mem_singleton.mp hw]
    show ([twoPatches].flatMap MultimodalDataItem.positions).Nodup
    decide

theorem chunkOps_shows : (run patchModel chunkStart chunkOps).executed.length = 2 ∧
    ∀ q ∈ (run patchModel chunkStart chunkOps).executed, ∃ e, q.2 = .ok e ∧
      e.Shows patchModel.hidden patchModel.deepstackVisualLayers (itemOutput patchRows) q.1 := by
  have hencodes : Encodes patchModel.encodeFuncs (fun item => item = twoPatches)
      patchModel.numEncoderLanes patchModel.packedHidden (itemOutput patchRows) :=
    VisionEncoder.encodes patchEncoder_local fun item hitem => by
      rw [hitem]
      exact ⟨by decide, _, patchEncoder_serves⟩
  have htell : HashesTell (fun item => item = twoPatches) (itemOutput patchRows) :=
    fun item other hitem hother _ => by rw [hitem, hother]
  refine ⟨by decide +kernel, run_shows_items hencodes htell (by decide) ⟨?_, rfl, rfl⟩ chunkOps ?_⟩
  · intro p hp
    cases hp
    exact ⟨2, 1, by decide, rfl⟩
  · intro prefill hprefill
    simp only [chunkOps, List.mem_cons, PrefillOp.schedule.injEq, reduceCtorEq, or_false,
      List.not_mem_nil] at hprefill
    rcases hprefill with rfl | rfl
    · exact chunk_valid 0
    · exact chunk_valid 2

end PrefillOp

end SglJax.Multimodal
