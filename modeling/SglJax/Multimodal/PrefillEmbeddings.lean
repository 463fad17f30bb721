import SglJax.Multimodal.BatchMerge

/-! What a prefill puts in front of the model: at a placeholder the row of its item, with the
parts that deepstack adds, and everywhere else the embedding of the token. -/
namespace SglJax.Multimodal

open Lora (Mat)
open Foundation

variable {F K : Type}

/-- The requests of a prefill, and the embeddings of its tokens. -/
structure Prefill (F K : Type) where
  reqsInfo : List (RankInfo F)
  dpSize : Nat
  perDpToken : Nat
  text : Mat K

namespace Prefill

def windows (prefill : Prefill F K) : List (Window F) :=
  Multimodal.windows (some prefill.reqsInfo) prefill.dpSize prefill.perDpToken

def tasks (prefill : Prefill F K) : List (ItemTask F) :=
  collectItemTasks (some prefill.reqsInfo) prefill.dpSize prefill.perDpToken

/-- The ranks fit their parts of the batch, and the placeholders of a request are apart. -/
structure Valid (servable : MultimodalDataItem F → Prop) (hidden : Nat) (prefill : Prefill F K) :
    Prop where
  fits : RanksFit (some prefill.reqsInfo) prefill.dpSize prefill.perDpToken
  tokens : prefill.text.rows.length = prefill.dpSize * prefill.perDpToken
  cols : prefill.text.cols = hidden
  servable : ∀ w ∈ prefill.windows, ∀ item ∈ w.items, servable item
  apart : ∀ w ∈ prefill.windows, (w.items.flatMap MultimodalDataItem.positions).Nodup

/-- A placeholder of the prompt is in the part that is computed. -/
def HasMedia (prefill : Prefill F K) (d : Nat) : Prop :=
  ∃ w ∈ prefill.windows, ∃ p, w.Reads d p ∧ ∃ item ∈ w.items, p ∈ item.positions

end Prefill

/-- Token `d` has the row: its start as the embedding, the rest layer by layer. -/
structure Embedded.Has (e : Embedded K) (hidden deepstackDim d : Nat) (row : List K) : Prop where
  input : e.inputEmbedding.rows[d]? = some (row.take hidden)
  deepstack : ∀ layer < deepstackDim, ∃ layers m, e.deepstack = some layers ∧
    layers[layer]? = some m ∧
    m.rows[d]? = some ((row.drop (hidden + layer * hidden)).take hidden)

/-- What the model reads for the tokens of the prefill. -/
structure Embedded.Shows [Zero K] (e : Embedded K) (hidden deepstackDim : Nat)
    (output : MultimodalDataItem F → List (List K)) (prefill : Prefill F K) : Prop where
  media : ∀ w ∈ prefill.windows, ∀ d p, w.Reads d p → ∀ item ∈ w.items, ∀ (k : Nat) row,
    item.positions[k]? = some p → (output item)[k]? = some row →
    e.Has hidden deepstackDim d row
  text : ∀ d row, prefill.text.rows[d]? = some row → ¬ prefill.HasMedia d →
    e.Has hidden deepstackDim d (row ++ List.replicate (hidden * deepstackDim) 0)
  applied : e.applyForDeepstack = true ↔ 0 < deepstackDim ∧ ∃ d, prefill.HasMedia d

section Tasks

variable {prefill : Prefill F K} {servable : MultimodalDataItem F → Prop}
  {hidden numLanes width : Nat}
  {output : MultimodalDataItem F → List (List K)} {encodeFuncs : EncodeFuncs F K}

theorem Prefill.of_mem_tasks {task : ItemTask F} (h : task ∈ prefill.tasks) :
    ∃ w ∈ prefill.windows, task.Of w := by
  obtain ⟨w, hw, htask⟩ := List.mem_flatMap.mp h
  exact ⟨w, hw, Window.of_mem_tasks htask⟩

theorem MergeMapping.lands_last {m : MergeMapping} (h : 0 < m.length) :
    m.Lands (m.destinationStart + m.length - 1) (m.sourceStart + m.length - 1) :=
  ⟨by omega, by omega, by omega⟩

theorem Prefill.Valid.sound (h : prefill.Valid servable hidden)
    (hencodes : Encodes encodeFuncs servable numLanes width output) {task : ItemTask F}
    (htask : task ∈ prefill.tasks) :
    task.Sound servable output prefill.text.rows.length := by
  obtain ⟨w, hw, hof⟩ := of_mem_tasks htask
  have hservable := h.servable w hw task.item hof.item_mem
  have hlast (m : MergeMapping) (hm : m ∈ task.mergeMappings) :=
    (hof.lands _ _).mp ⟨m, hm, MergeMapping.lands_last (hof.length_pos m hm)⟩
  refine ⟨hservable, by rw [hof.outputLen, hencodes.length _ hservable], fun m hm => ?_,
    fun m hm => ?_⟩
  · obtain ⟨p, hreads, -⟩ := hlast m hm
    have hbound := hreads.bounds
    have hinside := windows_inside h.fits hw
    have hpos := hof.length_pos m hm
    rw [h.tokens]
    omega
  · obtain ⟨p, -, hget⟩ := hlast m hm
    have hlt := (List.getElem?_eq_some_iff.mp hget).1
    have hpos := hof.length_pos m hm
    rw [hencodes.length _ hservable]
    omega

/-- The tasks land where the prompts have placeholders. -/
theorem Prefill.hasMedia_iff {d : Nat} :
    prefill.HasMedia d ↔ ∃ task ∈ prefill.tasks, ∃ k, Lands task.mergeMappings d k := by
  constructor
  · rintro ⟨w, hw, p, hreads, item, hitem, hp⟩
    obtain ⟨k, hk⟩ := List.mem_iff_getElem?.mp hp
    obtain ⟨task, htask, -, hlands⟩ := Window.exists_task hitem hreads hk
    exact ⟨task, List.mem_flatMap.mpr ⟨w, hw, htask⟩, k, hlands⟩
  · rintro ⟨task, htask, k, hlands⟩
    obtain ⟨w, hw, hof⟩ := of_mem_tasks htask
    obtain ⟨p, hreads, hget⟩ := (hof.lands d k).mp hlands
    exact ⟨w, hw, p, hreads, task.item, hof.item_mem, List.mem_of_getElem? hget⟩

theorem Prefill.exists_hasMedia_iff : (∃ d, prefill.HasMedia d) ↔ prefill.tasks ≠ [] := by
  constructor
  · rintro ⟨d, hd⟩
    obtain ⟨task, htask, -⟩ := hasMedia_iff.mp hd
    exact List.ne_nil_of_mem htask
  · intro hne
    obtain ⟨task, htask⟩ := List.exists_mem_of_ne_nil _ hne
    obtain ⟨w, -, hof⟩ := of_mem_tasks htask
    obtain ⟨m, hm⟩ := List.exists_mem_of_ne_nil _ task.nonempty
    exact ⟨_, hasMedia_iff.mpr
      ⟨task, htask, _, m, hm, MergeMapping.lands_last (hof.length_pos m hm)⟩⟩

/-- A position of the prompt belongs to one item, once. -/
theorem positions_unique {items : List (MultimodalDataItem F)}
    (h : (items.flatMap MultimodalDataItem.positions).Nodup) {item other : MultimodalDataItem F}
    (hitem : item ∈ items) (hother : other ∈ items) {k j p : Nat}
    (hk : item.positions[k]? = some p) (hj : other.positions[j]? = some p) :
    item = other ∧ k = j := by
  have hsame : item = other := by
    by_contra hne
    have hsymm : Std.Symm (Function.onFun List.Disjoint
        (MultimodalDataItem.positions (F := F))) := ⟨fun _ _ hd => hd.symm⟩
    exact (List.nodup_flatMap.mp h).2.forall hitem hother hne (List.mem_of_getElem? hk)
      (List.mem_of_getElem? hj)
  subst hsame
  have hnodup := (List.nodup_flatMap.mp h).1 item hitem
  have hlt := (List.getElem?_eq_some_iff.mp hk).1
  exact ⟨rfl, (List.getElem?_inj hlt hnodup).mp (hk.trans hj.symm)⟩

/-- Laid over the tokens, the tasks put its row at every placeholder. -/
theorem Prefill.Valid.merged_media (h : prefill.Valid servable hidden) {running result : Mat K}
    (hmerged : Merged output prefill.tasks running result) {w : Window F}
    (hw : w ∈ prefill.windows) {d p : Nat} (hreads : w.Reads d p) {item : MultimodalDataItem F}
    (hitem : item ∈ w.items) {k : Nat} {row : List K} (hk : item.positions[k]? = some p)
    (hrow : (output item)[k]? = some row) : result.rows[d]? = some row := by
  refine hmerged.covered d row (hasMedia_iff.mp
    ⟨w, hw, p, hreads, item, hitem, List.mem_of_getElem? hk⟩) fun task htask j hlands => ?_
  obtain ⟨w', hw', hof⟩ := of_mem_tasks htask
  obtain ⟨p', hreads', hget⟩ := (hof.lands d j).mp hlands
  obtain ⟨rfl, rfl⟩ := windows_unique h.fits hw hw' hreads hreads'
  obtain ⟨rfl, rfl⟩ := positions_unique (h.apart w hw) hitem hof.item_mem hk hget
  exact hrow

end Tasks

section Split

variable {running : Mat K} {hidden deepstackDim d : Nat} {row : List K}

theorem getElem?_sliceCols (start size : Nat) (h : running.rows[d]? = some row) :
    (sliceCols start size running).rows[d]? = some ((row.drop start).take size) := by
  simp [sliceCols, h]

/-- The columns are split into the embedding and the layers of deepstack. -/
theorem has_splitEmbeddings (hcols : running.cols = hidden + hidden * deepstackDim)
    (applied : Bool) (h : running.rows[d]? = some row) :
    Embedded.Has ⟨(splitEmbeddings running hidden deepstackDim).1,
      (splitEmbeddings running hidden deepstackDim).2, applied⟩ hidden deepstackDim d row := by
  by_cases hzero : deepstackDim = 0
  · subst hzero
    have hlength : row.length ≤ hidden := by
      rw [running.length_row row (List.mem_of_getElem? h), hcols, Nat.mul_zero, Nat.add_zero]
    refine ⟨?_, fun layer hlayer => absurd hlayer (Nat.not_lt_zero layer)⟩
    simp only [splitEmbeddings, if_true]
    rw [h, List.take_of_length_le hlength]
  · simp only [splitEmbeddings, if_neg hzero]
    refine ⟨getElem?_sliceCols 0 hidden h, fun layer hlayer => ⟨_, _, rfl, ?_,
      getElem?_sliceCols (hidden + layer * hidden) hidden h⟩⟩
    rw [List.getElem?_map, List.getElem?_range hlayer, Option.map_some]

end Split

section Embed

variable [Zero K] {servable : MultimodalDataItem F → Prop}
  {hidden deepstackDim numLanes : Nat}
  {output : MultimodalDataItem F → List (List K)} {encodeFuncs : EncodeFuncs F K}
  {pool : Option (EmbeddingPool K)} {prefill : Prefill F K} {batch : MultimodalBatch F}
  {cached : ItemTask F → Prop} {d : Nat} {row : List K}

/-- The text embeddings, with room for the layers of deepstack. -/
def widened (text : Mat K) (deepstackDim : Nat) : Mat K :=
  if deepstackDim ≠ 0 then text.padCols (text.cols + text.cols * deepstackDim) else text

theorem cols_widened (text : Mat K) (deepstackDim : Nat) :
    (widened text deepstackDim).cols = text.cols + text.cols * deepstackDim := by
  unfold widened
  split
  · simp only [Mat.padCols]
    omega
  · next h =>
    rw [not_not.mp h, Nat.mul_zero, Nat.add_zero]

theorem getElem?_widened {text : Mat K} (h : text.rows[d]? = some row) (deepstackDim : Nat) :
    (widened text deepstackDim).rows[d]? =
      some (row ++ List.replicate (text.cols * deepstackDim) 0) := by
  unfold widened
  split
  · simp [Mat.padCols, h]
  · next hzero =>
    rw [h, not_not.mp hzero, Nat.mul_zero, List.replicate_zero, List.append_nil]

theorem length_widened (text : Mat K) (deepstackDim : Nat) :
    (widened text deepstackDim).rows.length = text.rows.length := by
  unfold widened
  split
  · simp [Mat.padCols]
  · rfl

/-- A prefill without media. -/
theorem embed_none (hcols : prefill.text.cols = hidden) (hempty : prefill.tasks = [])
    (encodeFuncs : EncodeFuncs F K) (pool : Option (EmbeddingPool K)) :
    ∃ e, embedMultimodalInputs none prefill.text deepstackDim encodeFuncs pool = .ok (e, pool) ∧
      e.Shows hidden deepstackDim output prefill := by
  have hnone : ¬ ∃ d, prefill.HasMedia d := by
    rw [Prefill.exists_hasMedia_iff]
    exact not_not_intro hempty
  have hshows {e : Embedded K} (happlied : e.applyForDeepstack = false)
      (htext : ∀ d row, prefill.text.rows[d]? = some row →
        e.Has hidden deepstackDim d (row ++ List.replicate (hidden * deepstackDim) 0)) :
      e.Shows hidden deepstackDim output prefill :=
    ⟨fun w hw d p hreads item hitem k row hk _ => absurd ⟨d, w, hw, p, hreads, item, hitem,
      List.mem_of_getElem? hk⟩ hnone, fun d row hrow _ => htext d row hrow,
      by simp [happlied, hnone]⟩
  have hrowLength {d : Nat} {row : List K} (hrow : prefill.text.rows[d]? = some row) :
      row.length = hidden := by
    rw [prefill.text.length_row row (List.mem_of_getElem? hrow), hcols]
  unfold embedMultimodalInputs
  dsimp only
  split
  · refine ⟨_, rfl, hshows rfl fun d row hrow => ⟨?_, fun layer hlayer => ⟨_, _, rfl,
      List.getElem?_replicate_of_lt hlayer, ?_⟩⟩⟩
    · rw [List.take_append_of_le_length (hrowLength hrow).ge,
        List.take_of_length_le (hrowLength hrow).le]
      exact hrow
    · have hlt := (List.getElem?_eq_some_iff.mp hrow).1
      have hroom : hidden ≤ hidden * deepstackDim - layer * hidden := by
        rw [Nat.mul_comm layer, ← Nat.mul_sub]
        exact Nat.le_mul_of_pos_right hidden (Nat.sub_pos_of_lt hlayer)
      rw [← hrowLength hrow, List.drop_append, List.drop_eq_nil_of_le (Nat.le_add_right _ _),
        List.nil_append, Nat.add_sub_cancel_left, List.drop_replicate, List.take_replicate,
        hrowLength hrow, Nat.min_eq_left hroom, ← hcols]
      exact List.getElem?_replicate_of_lt hlt
  · next hzero =>
    rw [not_not] at hzero
    subst hzero
    refine ⟨_, rfl, hshows rfl fun d row hrow => ⟨?_, fun layer hlayer =>
      absurd hlayer (Nat.not_lt_zero layer)⟩⟩
    rw [Nat.mul_zero, List.replicate_zero, List.append_nil,
      List.take_of_length_le (hrowLength hrow).le]
    exact hrow

/-- A prefill with media, whatever of them was cached when it was scheduled. -/
theorem embed_some
    (hencodes : Encodes encodeFuncs servable numLanes (hidden + hidden * deepstackDim) output)
    (htell : HashesTell servable output) (hvalid : prefill.Valid servable hidden)
    (hholds : batch.Holds numLanes prefill.tasks cached) (hne : prefill.tasks ≠ [])
    (hpool : ∀ p ∈ pool, Cached servable (hidden + hidden * deepstackDim) output p) :
    ∃ e pool', embedMultimodalInputs (some batch) prefill.text deepstackDim encodeFuncs pool =
        .ok (e, pool') ∧ e.Shows hidden deepstackDim output prefill ∧
      ∀ p ∈ pool', Cached servable (hidden + hidden * deepstackDim) output p := by
  have hcols : (widened prefill.text deepstackDim).cols = hidden + hidden * deepstackDim := by
    rw [cols_widened, hvalid.cols]
  obtain ⟨running', pool', hrun, hmerged, hcached⟩ := mergeBatch_spec hencodes htell hholds hcols
    hpool fun task htask => by
      rw [length_widened]
      exact hvalid.sound hencodes htask
  have hcols' : running'.cols = hidden + hidden * deepstackDim := hmerged.cols.trans hcols
  refine ⟨⟨(splitEmbeddings running' hidden deepstackDim).1,
    (splitEmbeddings running' hidden deepstackDim).2, 0 < deepstackDim⟩, pool', ?_, ?_, hcached⟩
  · simp only [embedMultimodalInputs]
    rw [← widened, hrun, ok_bind, hvalid.cols]
    rfl
  · refine ⟨fun w hw d p hreads item hitem k row hk hrow => ?_, fun d row hrow hd => ?_, ?_⟩
    · exact has_splitEmbeddings hcols' _
        (hvalid.merged_media hmerged hw hreads hitem hk hrow)
    · apply has_splitEmbeddings hcols'
      rw [hmerged.kept d fun task htask k hlands =>
        hd (Prefill.hasMedia_iff.mpr ⟨task, htask, k, hlands⟩)]
      rw [getElem?_widened hrow, hvalid.cols]
    · rw [Prefill.exists_hasMedia_iff]
      simp [hne]

end Embed

end SglJax.Multimodal
