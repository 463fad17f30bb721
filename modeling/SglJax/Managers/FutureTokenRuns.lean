import SglJax.Managers.FutureTokenBatches

/-! Every run of the overlap pipeline resolves a placeholder to the last token of the
request it was made for: a slot changes its owner only behind all batches in the queue
that write it for the old one. -/
namespace SglJax.Managers.FutureTokens

open Foundation MemCache

variable {ρ : Type}

/-- All batches that were pushed, in their order. -/
def history (s : State ρ) : List (List (Row ρ)) :=
  s.executed.map Prod.fst ++ s.inputQueue

/-- A row of a running batch: the request has the slot, the output id is its placeholder, and
of the batches that were pushed the last one with the request is the last one to write the slot. -/
structure Owned (pushed : List (List (Row ρ))) (reqPoolIdx : ρ → Option Nat) (row : InfoRow ρ) :
    Prop where
  slot : reqPoolIdx row.req = some row.reqPoolIdx
  seqLen : 0 < row.seqLen
  outputId : row.outputId = -((row.reqPoolIdx : Int) + 1)
  freshest : Freshest pushed row.req row.reqPoolIdx

/-- A request is held in one place; a chunked one can still be in the last prefill batch. -/
structure Apart (waiting chunked running last : List ρ) : Prop where
  waiting_nodup : waiting.Nodup
  chunked_nodup : chunked.Nodup
  running_nodup : running.Nodup
  last_nodup : last.Nodup
  waiting_chunked : ∀ r ∈ waiting, r ∉ chunked
  waiting_running : ∀ r ∈ waiting, r ∉ running
  waiting_last : ∀ r ∈ waiting, r ∉ last
  chunked_running : ∀ r ∈ chunked, r ∉ running
  last_running : ∀ r ∈ last, r ∉ running

/-- The placeholders of a batch are fresh among the batches before it. -/
def Placed (pushed : List (List (Row ρ))) (batch : List (Row ρ)) : Prop :=
  ∀ row ∈ batch, ∀ r (idx : Nat), row.req = some r → row.reqPoolIdx = (idx : Int) →
    row.inputIds = [-((idx : Int) + 1)] → Freshest pushed r idx

structure Inv (size : Nat) (s : State ρ) : Prop where
  apart : Apart s.waiting s.chunked (s.running.map (·.req)) (s.last.map (·.req))
  slots : SlotsOk size s.pool.freeSlots s.reqPoolIdx
  waiting_none : ∀ r ∈ s.waiting, s.reqPoolIdx r = none
  finished_none : ∀ r, s.finished r = true → s.reqPoolIdx r = none
  finished_out : ∀ r, s.finished r = true → r ∉ s.waiting ∧ r ∉ s.chunked
  owned : ∀ row ∈ s.running ++ s.last, s.finished row.req = false →
    Owned (history s) s.reqPoolIdx row
  batches : ∀ batch ∈ history s, ∃ slot, BatchOk size slot batch
  placed : ∀ before batch after, history s = before ++ batch :: after → Placed before batch
  map_eq : s.map = replay (List.replicate (size + 2) 0) s.executed
  tokens : ∀ entry ∈ s.executed, entry.2.length = entry.1.length

section

variable [DecidableEq ρ] (cfg : Config ρ)

/-- Rows that can be pushed: their requests have the slots, and a placeholder is fresh. -/
structure Pushable (pushed : List (List (Row ρ))) (reqPoolIdx : ρ → Option Nat)
    (rows : List (InfoRow ρ × List Int)) : Prop where
  nodup : (rows.map fun entry => entry.1.req).Nodup
  slot : ∀ entry ∈ rows, reqPoolIdx entry.1.req = some entry.1.reqPoolIdx
  seqLen : ∀ entry ∈ rows, 0 < entry.1.seqLen
  fresh : ∀ entry ∈ rows, entry.2 = [-((entry.1.reqPoolIdx : Int) + 1)] →
    Freshest pushed entry.1.req entry.1.reqPoolIdx

namespace Pushable

variable {size perDpBs mapSize : Nat} {pushed : List (List (Row ρ))} {reqPoolIdx : ρ → Option Nat}
  {rows : List (InfoRow ρ × List Int)} (h : Pushable pushed reqPoolIdx rows)

include h

/-- A real row of the batch belongs to one of the rows. -/
theorem row_of_real {row : Row ρ} (hrow : row ∈ workerBatch cfg perDpBs rows) {r : ρ}
    (hreq : row.req = some r) :
    ∃ entry ∈ rows, entry.1.req = r ∧ row = realRow entry := by
  rcases mem_workerBatch cfg hrow with rfl | ⟨entry, hentry, rfl⟩
  · cases hreq
  · exact ⟨entry, hentry, Option.some.inj hreq, rfl⟩

theorem batchOk {free : List Nat} (hslots : SlotsOk size free reqPoolIdx) :
    BatchOk size (fun r => (reqPoolIdx r).getD 0) (workerBatch cfg perDpBs rows) := by
  constructor
  · intro row hrow hreq
    rcases mem_workerBatch cfg hrow with rfl | ⟨entry, -, rfl⟩
    · rfl
    · cases hreq
  · intro row hrow r hreq
    obtain ⟨entry, hentry, rfl, rfl⟩ := h.row_of_real cfg hrow hreq
    have hslot := h.slot entry hentry
    have hpos := h.seqLen entry hentry
    refine ⟨?_, ?_, ?_⟩
    · show (0 : Int) < (entry.1.seqLen : Int)
      omega
    · rw [hslot]
      rfl
    · rw [hslot]
      exact (hslots.held _ _ hslot).1
  · intro row hrow row' hrow' r r' hreq hreq' heq
    obtain ⟨entry, hentry, rfl, rfl⟩ := h.row_of_real cfg hrow hreq
    obtain ⟨entry', hentry', rfl, rfl⟩ := h.row_of_real cfg hrow' hreq'
    have hslot := h.slot entry hentry
    have hslot' := h.slot entry' hentry'
    rw [hslot, hslot'] at heq
    have hsame : entry.1.reqPoolIdx = entry'.1.reqPoolIdx := heq
    rw [hsame] at hslot
    exact hslots.inj _ _ _ hslot hslot'
  · rw [filterMap_workerBatch]
    exact nodup_byRank cfg (fun entry : InfoRow ρ × List Int => entry.1.req) h.nodup

theorem placed : Placed pushed (workerBatch cfg perDpBs rows) := by
  intro row hrow r idx hreq hidx hids
  obtain ⟨entry, hentry, rfl, rfl⟩ := h.row_of_real cfg hrow hreq
  have hsame : entry.1.reqPoolIdx = idx := by
    have hcast : (entry.1.reqPoolIdx : Int) = idx := hidx
    omega
  rw [← hsame] at hids ⊢
  exact h.fresh entry hentry hids

/-- A row whose request is not in the batch stays fresh. -/
theorem owned_other {free : List Nat} (hslots : SlotsOk size free reqPoolIdx) {row : InfoRow ρ}
    (hrow : Owned pushed reqPoolIdx row) (hother : row.req ∉ rows.map fun entry => entry.1.req) :
    Owned (pushed ++ [workerBatch cfg perDpBs rows]) reqPoolIdx row := by
  refine ⟨hrow.slot, hrow.seqLen, hrow.outputId, hrow.freshest.append ?_⟩
  intro real hreal
  have hne : ∀ entry ∈ rows, entry.1.req ≠ row.req := fun entry hentry heq =>
    hother (List.mem_map.2 ⟨entry, hentry, heq⟩)
  constructor
  · intro hreq
    obtain ⟨entry, hentry, heq, -⟩ := h.row_of_real cfg hreal hreq
    exact hne entry hentry heq
  · intro hsome hidx
    obtain ⟨r, hreq⟩ := Option.isSome_iff_exists.1 hsome
    obtain ⟨entry, hentry, rfl, rfl⟩ := h.row_of_real cfg hreal hreq
    have hsame : entry.1.reqPoolIdx = row.reqPoolIdx := by
      have hcast : (entry.1.reqPoolIdx : Int) = row.reqPoolIdx := hidx
      omega
    have hslot := h.slot entry hentry
    rw [hsame] at hslot
    exact hne entry hentry (hslots.inj _ _ _ hslot hrow.slot)

variable (hroom : ∀ d, (rows.filter fun entry => cfg.dpRank entry.1.req = d).length ≤ perDpBs)

include hroom

/-- The rows that the scheduler goes on with. -/
theorem mem_outputs {row : InfoRow ρ} :
    row ∈ extractOutputIds cfg perDpBs
      ((workerBatch cfg perDpBs rows).map (futureNextTokenId mapSize)) (rows.map Prod.fst) ↔
    ∃ entry ∈ rows, row = { entry.1 with outputId := -((entry.1.reqPoolIdx : Int) + 1) } := by
  rw [extractOutputIds_eq cfg hroom]
  have hid : ∀ entry ∈ rows, futureNextTokenId mapSize (realRow entry) =
      -((entry.1.reqPoolIdx : Int) + 1) := fun entry hentry => by
    have hpos : (0 : Int) < (realRow entry).seqLen := by
      show (0 : Int) < (entry.1.seqLen : Int)
      have := h.seqLen entry hentry
      omega
    unfold futureNextTokenId futureSlot
    rw [if_pos hpos, if_pos hpos]
    rfl
  constructor
  · intro hrow
    obtain ⟨d, -, hd⟩ := List.mem_flatMap.1 hrow
    obtain ⟨entry, hentry, rfl⟩ := List.mem_map.1 hd
    have hmem := (List.mem_filter.1 hentry).1
    exact ⟨entry, hmem, by rw [hid entry hmem]⟩
  · rintro ⟨entry, hentry, rfl⟩
    apply List.mem_flatMap.2
    refine ⟨cfg.dpRank entry.1.req, List.mem_range.2 (cfg.dpRank_lt _), List.mem_map.2 ?_⟩
    exact ⟨entry, List.mem_filter.2 ⟨hentry, by simp⟩, by rw [hid entry hentry]⟩

theorem outputs_nodup : ((extractOutputIds cfg perDpBs
    ((workerBatch cfg perDpBs rows).map (futureNextTokenId mapSize)) (rows.map Prod.fst)).map
      (·.req)).Nodup := by
  rw [extractOutputIds_eq cfg hroom, List.map_flatMap]
  have hsame : ∀ d, ((rows.filter fun entry => cfg.dpRank entry.1.req = d).map fun entry =>
      ({ entry.1 with outputId := futureNextTokenId mapSize (realRow entry) } : InfoRow ρ)).map
        (·.req) =
      (rows.filter fun entry => cfg.dpRank entry.1.req = d).map fun entry => entry.1.req := fun d => by
    rw [List.map_map]
    rfl
  simp only [hsame]
  exact nodup_byRank cfg (fun entry : InfoRow ρ × List Int => entry.1.req) h.nodup

theorem outputs_reqs {r : ρ} : r ∈ (extractOutputIds cfg perDpBs
    ((workerBatch cfg perDpBs rows).map (futureNextTokenId mapSize)) (rows.map Prod.fst)).map
      (·.req) ↔ r ∈ rows.map fun entry => entry.1.req := by
  constructor
  · intro hr
    obtain ⟨row, hrow, rfl⟩ := List.mem_map.1 hr
    obtain ⟨entry, hentry, rfl⟩ := (h.mem_outputs cfg hroom).1 hrow
    exact List.mem_map.2 ⟨entry, hentry, rfl⟩
  · intro hr
    obtain ⟨entry, hentry, rfl⟩ := List.mem_map.1 hr
    exact List.mem_map.2 ⟨_, (h.mem_outputs cfg hroom).2 ⟨entry, hentry, rfl⟩, rfl⟩

theorem owned_outputs {row : InfoRow ρ}
    (hrow : row ∈ extractOutputIds cfg perDpBs
      ((workerBatch cfg perDpBs rows).map (futureNextTokenId mapSize)) (rows.map Prod.fst)) :
    Owned (pushed ++ [workerBatch cfg perDpBs rows]) reqPoolIdx row := by
  obtain ⟨entry, hentry, rfl⟩ := (h.mem_outputs cfg hroom).1 hrow
  refine ⟨h.slot entry hentry, h.seqLen entry hentry, rfl, ?_⟩
  exact Freshest.last pushed (realRow_mem cfg perDpBs hentry) rfl rfl

end Pushable

theorem initial_inv (size : Nat) : Inv size (initial size : State ρ) := by
  constructor
  · constructor <;> simp [initial]
  · constructor
    · exact List.nodup_range
    · exact fun i hi => List.mem_range.1 hi
    · intro r i hi
      cases hi
    · intro r r' i hi
      cases hi
  · exact fun r _ => rfl
  · exact fun r _ => rfl
  · exact fun r _ => ⟨by simp [initial], by simp [initial]⟩
  · intro row hrow
    cases hrow
  · intro batch hbatch
    cases hbatch
  · intro before batch after hsplit
    exact absurd hsplit (by simp [history, initial])
  · rfl
  · intro entry hentry
    cases hentry

theorem mergeLast_inv {size : Nat} {s : State ρ} (h : Inv size s) : Inv size (mergeLast s) := by
  have hsub : ∀ r ∈ (s.last.filter fun row => !s.finished row.req && row.req ∉ s.chunked).map
      (·.req), r ∈ s.last.map (·.req) ∧ r ∉ s.chunked := fun r hr => by
    obtain ⟨row, hrow, rfl⟩ := List.mem_map.1 hr
    obtain ⟨hmem, hkeep⟩ := List.mem_filter.1 hrow
    simp only [Bool.and_eq_true, decide_eq_true_eq] at hkeep
    exact ⟨List.mem_map.2 ⟨row, hmem, rfl⟩, hkeep.2⟩
  refine { h with apart := ?_, owned := ?_ }
  · have hapart := h.apart
    constructor
    · exact hapart.waiting_nodup
    · exact hapart.chunked_nodup
    · show ((s.running ++ _).map (·.req)).Nodup
      rw [List.map_append, List.nodup_append]
      refine ⟨hapart.running_nodup, hapart.last_nodup.sublist (List.filter_sublist.map _), ?_⟩
      intro a ha b hb heq
      exact hapart.last_running b (hsub b hb).1 (heq ▸ ha)
    · exact List.nodup_nil
    · exact hapart.waiting_chunked
    · intro r hr hrun
      simp only [mergeLast, List.map_append, List.mem_append] at hrun
      rcases hrun with hrun | hrun
      · exact hapart.waiting_running r hr hrun
      · exact hapart.waiting_last r hr (hsub r hrun).1
    · intro r _ hlast
      cases hlast
    · intro r hr hrun
      simp only [mergeLast, List.map_append, List.mem_append] at hrun
      rcases hrun with hrun | hrun
      · exact hapart.chunked_running r hr hrun
      · exact (hsub r hrun).2 hr
    · intro r hr
      cases hr
  · intro row hrow hfinished
    apply h.owned row _ hfinished
    simp only [mergeLast, List.append_nil, List.mem_append] at hrow ⊢
    exact hrow.imp_right fun hmem => (List.mem_filter.1 hmem).1

/-- The running requests decode: their output ids are their placeholders. -/
theorem decodeRows_pushable {size : Nat} {s : State ρ} (h : Inv size s) :
    Pushable (history s) s.reqPoolIdx (decodeRows s) := by
  have hentry : ∀ entry ∈ decodeRows s, ∃ row ∈ s.running, s.finished row.req = false ∧
      entry = ({ row with seqLen := row.seqLen + 1 }, [row.outputId]) := fun entry hentry => by
    obtain ⟨row, hrow, rfl⟩ := List.mem_map.1 hentry
    obtain ⟨hmem, hkeep⟩ := List.mem_filter.1 hrow
    exact ⟨row, hmem, by simpa using hkeep, rfl⟩
  have howned : ∀ row ∈ s.running, s.finished row.req = false →
      Owned (history s) s.reqPoolIdx row := fun row hrow => h.owned row (by simp [hrow])
  constructor
  · have hsame : (decodeRows s).map (fun entry => entry.1.req) =
        (s.running.filter fun row => !s.finished row.req).map (·.req) := by
      unfold decodeRows
      rw [List.map_map]
      rfl
    rw [hsame]
    exact h.apart.running_nodup.sublist (List.filter_sublist.map _)
  · intro entry hmem
    obtain ⟨row, hrow, hfinished, rfl⟩ := hentry entry hmem
    exact (howned row hrow hfinished).slot
  · intro entry hmem
    obtain ⟨row, hrow, hfinished, rfl⟩ := hentry entry hmem
    exact Nat.succ_pos _
  · intro entry hmem _
    obtain ⟨row, hrow, hfinished, rfl⟩ := hentry entry hmem
    exact (howned row hrow hfinished).freshest

theorem decodeRows_reqs {s : State ρ} {r : ρ}
    (h : r ∈ (decodeRows s).map fun entry => entry.1.req) :
    r ∈ s.running.map (·.req) ∧ s.finished r = false := by
  obtain ⟨entry, hentry, rfl⟩ := List.mem_map.1 h
  obtain ⟨row, hrow, rfl⟩ := List.mem_map.1 hentry
  obtain ⟨hmem, hkeep⟩ := List.mem_filter.1 hrow
  exact ⟨List.mem_map.2 ⟨row, hmem, rfl⟩, by simpa using hkeep⟩

/-- One more batch behind the others. -/
theorem placed_append {pushed : List (List (Row ρ))} {batch : List (Row ρ)}
    (h : ∀ before b after, pushed = before ++ b :: after → Placed before b)
    (hlast : Placed pushed batch) :
    ∀ before b after, pushed ++ [batch] = before ++ b :: after → Placed before b := by
  intro before b after hsplit
  rcases List.eq_nil_or_concat after with rfl | ⟨after', last, rfl⟩
  · obtain ⟨rfl, heq⟩ := List.append_inj' hsplit rfl
    cases heq
    exact hlast
  · rw [List.concat_eq_append, ← List.cons_append, ← List.append_assoc] at hsplit
    obtain ⟨hpushed, -⟩ := List.append_inj' hsplit rfl
    exact h before b after' hpushed

/-- The ranks have room for rows with these requests. -/
theorem room_of_reqs {perDpBs : Nat} {rows : List (InfoRow ρ × List Int)} {reqs : List ρ}
    (hreqs : (rows.map fun entry => entry.1.req) = reqs)
    (hroom : ∀ d, (reqs.filter fun r => cfg.dpRank r = d).length ≤ perDpBs) (d : Nat) :
    (rows.filter fun entry => cfg.dpRank entry.1.req = d).length ≤ perDpBs := by
  have hsame : (rows.filter fun entry => cfg.dpRank entry.1.req = d).length =
      (reqs.filter fun r => cfg.dpRank r = d).length := by
    rw [← hreqs, List.filter_map, List.length_map]
    rfl
  rw [hsame]
  exact hroom d

theorem pushDecode_inv {size perDpBs : Nat} {s : State ρ} (h : Inv size s)
    (hroom : ∀ d, (((decodeRows (mergeLast s)).map (·.1.req)).filter
      fun r => cfg.dpRank r = d).length ≤ perDpBs) : Inv size (pushDecode cfg perDpBs s) := by
  have hm := mergeLast_inv h
  have hpush := decodeRows_pushable hm
  have hrows := room_of_reqs cfg rfl hroom
  have hhistory : history (pushDecode cfg perDpBs s) =
      history (mergeLast s) ++ [workerBatch cfg perDpBs (decodeRows (mergeLast s))] := by
    show _ ++ (_ ++ _) = _ ++ _ ++ _
    rw [List.append_assoc]
    rfl
  have hreqs : ∀ r ∈ (pushDecode cfg perDpBs s).running.map (·.req),
      r ∈ (mergeLast s).running.map (·.req) ∧ (mergeLast s).finished r = false := fun r hr =>
    decodeRows_reqs ((hpush.outputs_reqs cfg hrows).1 hr)
  have hapart := hm.apart
  constructor
  · constructor
    · exact hapart.waiting_nodup
    · exact hapart.chunked_nodup
    · exact hpush.outputs_nodup cfg hrows
    · exact List.nodup_nil
    · exact hapart.waiting_chunked
    · exact fun r hr hrun => hapart.waiting_running r hr (hreqs r hrun).1
    · intro r _ hlast
      cases hlast
    · exact fun r hr hrun => hapart.chunked_running r hr (hreqs r hrun).1
    · intro r hr
      cases hr
  · exact hm.slots
  · exact hm.waiting_none
  · exact hm.finished_none
  · exact hm.finished_out
  · intro row hrow _
    rw [hhistory]
    have hmem : row ∈ (pushDecode cfg perDpBs s).running := by
      have hlast : (pushDecode cfg perDpBs s).last = [] := rfl
      rwa [hlast, List.append_nil] at hrow
    exact hpush.owned_outputs cfg hrows hmem
  · intro batch hbatch
    rw [hhistory] at hbatch
    rcases List.mem_append.1 hbatch with hbatch | hbatch
    · exact hm.batches batch hbatch
    · rw [List.mem_singleton.1 hbatch]
      exact ⟨_, hpush.batchOk cfg hm.slots⟩
  · rw [hhistory]
    exact placed_append hm.placed (hpush.placed cfg)
  · exact hm.map_eq
  · exact hm.tokens

theorem freeSlot_eq {r : ρ} {s s' : State ρ} (h : freeSlot r s = some s') :
    ∃ i, s.reqPoolIdx r = some i ∧
      s' = { s with
        pool := { s.pool with freeSlots := s.pool.freeSlots ++ [i] }
        reqPoolIdx := Function.update s.reqPoolIdx r none } := by
  unfold freeSlot ReqToTokenPool.free at h
  cases hslot : s.reqPoolIdx r with
  | none =>
    rw [hslot] at h
    cases h
  | some i =>
    rw [hslot] at h
    exact ⟨i, rfl, (Option.some.inj h).symm⟩

theorem Owned.update {pushed : List (List (Row ρ))} {reqPoolIdx : ρ → Option Nat} {r : ρ}
    {row : InfoRow ρ} (h : Owned pushed reqPoolIdx row) (hne : row.req ≠ r) :
    Owned pushed (Function.update reqPoolIdx r none) row :=
  ⟨by rw [Function.update_of_ne hne]; exact h.slot, h.seqLen, h.outputId, h.freshest⟩

theorem update_none_of_none {reqPoolIdx : ρ → Option Nat} {r r' : ρ} (h : reqPoolIdx r' = none) :
    Function.update reqPoolIdx r none r' = none := by
  by_cases heq : r' = r
  · rw [heq, Function.update_self]
  · rw [Function.update_of_ne heq, h]

theorem finish_inv {size : Nat} {s s' : State ρ} (h : Inv size s) {r : ρ}
    (hheld : r ∈ s.running.map (·.req) ∨ r ∈ s.last.map (·.req)) (hchunked : r ∉ s.chunked)
    (hfree : freeSlot r s = some s') :
    Inv size { s' with finished := Function.update s.finished r true } := by
  obtain ⟨i, hslot, rfl⟩ := freeSlot_eq hfree
  have hwaiting : ∀ r' ∈ s.waiting, Function.update s.reqPoolIdx r none r' = none :=
    fun r' hr' => update_none_of_none (h.waiting_none r' hr')
  refine { h with
    slots := h.slots.give hslot, waiting_none := hwaiting, finished_none := ?_,
    finished_out := ?_, owned := ?_ }
  · intro r' hr'
    by_cases heq : r' = r
    · rw [heq]
      exact Function.update_self ..
    · have hold : Function.update s.finished r true r' = true := hr'
      rw [Function.update_of_ne heq] at hold
      exact update_none_of_none (h.finished_none r' hold)
  · intro r' hr'
    by_cases heq : r' = r
    · rw [heq]
      refine ⟨fun hw => ?_, hchunked⟩
      exact hheld.elim (h.apart.waiting_running r hw) (h.apart.waiting_last r hw)
    · have hold : Function.update s.finished r true r' = true := hr'
      rw [Function.update_of_ne heq] at hold
      exact h.finished_out r' hold
  · intro row hrow hfinished
    have hold : Function.update s.finished r true row.req = false := hfinished
    have hne : row.req ≠ r := fun heq => by
      rw [heq, Function.update_self] at hold
      cases hold
    rw [Function.update_of_ne hne] at hold
    exact (h.owned row hrow hold).update hne

/-- What a request that loses its slot without finishing leaves. -/
theorem retire_inv {size : Nat} {s s' : State ρ} (h : Inv size s) {r : ρ} (requeue : Bool)
    (chunked : List ρ) (running last : List (InfoRow ρ)) (hfinished : s.finished r = false)
    (hfree : freeSlot r s = some s')
    (hchunked : chunked.Sublist s.chunked) (hrunning : running.Sublist s.running)
    (hlast : last.Sublist s.last) (hrChunked : r ∉ chunked) (hrRunning : r ∉ running.map (·.req))
    (hrLast : r ∉ last.map (·.req)) :
    Inv size { s' with
      chunked := chunked
      running := running
      last := last
      waiting := if requeue then s.waiting ++ [r] else s.waiting } := by
  obtain ⟨i, hslot, rfl⟩ := freeSlot_eq hfree
  have hnew : r ∉ s.waiting := fun hmem => by
    rw [h.waiting_none r hmem] at hslot
    cases hslot
  have hmem : ∀ r' ∈ (if requeue then s.waiting ++ [r] else s.waiting), r' ∈ s.waiting ∨ r' = r := by
    intro r' hr'
    cases requeue with
    | false => exact .inl hr'
    | true => simpa using hr'
  have hapart := h.apart
  have hchunkedSub := hchunked.subset
  have hrunningSub := (hrunning.map (·.req)).subset
  have hlastSub := (hlast.map (·.req)).subset
  have hnone : ∀ r', s.finished r' = true → Function.update s.reqPoolIdx r none r' = none :=
    fun r' hr' => update_none_of_none (h.finished_none r' hr')
  refine { h with
    apart := ?_, slots := h.slots.give hslot, waiting_none := ?_, finished_none := hnone,
    finished_out := ?_, owned := ?_ }
  · constructor
    · cases requeue with
      | false => exact hapart.waiting_nodup
      | true =>
        show (s.waiting ++ [r]).Nodup
        rw [List.nodup_append]
        refine ⟨hapart.waiting_nodup, List.nodup_singleton r, ?_⟩
        intro a ha b hb heq
        rw [List.mem_singleton] at hb
        exact hnew (by rwa [← hb, ← heq])
    · exact hapart.chunked_nodup.sublist hchunked
    · exact hapart.running_nodup.sublist (hrunning.map _)
    · exact hapart.last_nodup.sublist (hlast.map _)
    · intro r' hr' hc
      rcases hmem r' hr' with hw | rfl
      · exact hapart.waiting_chunked r' hw (hchunkedSub hc)
      · exact hrChunked hc
    · intro r' hr' hrun
      rcases hmem r' hr' with hw | rfl
      · exact hapart.waiting_running r' hw (hrunningSub hrun)
      · exact hrRunning hrun
    · intro r' hr' hl
      rcases hmem r' hr' with hw | rfl
      · exact hapart.waiting_last r' hw (hlastSub hl)
      · exact hrLast hl
    · exact fun r' hr' hrun => hapart.chunked_running r' (hchunkedSub hr') (hrunningSub hrun)
    · exact fun r' hr' hrun => hapart.last_running r' (hlastSub hr') (hrunningSub hrun)
  · intro r' hr'
    rcases hmem r' hr' with hw | rfl
    · exact update_none_of_none (h.waiting_none r' hw)
    · exact Function.update_self ..
  · intro r' hr'
    refine ⟨fun hw => ?_, fun hc => (h.finished_out r' hr').2 (hchunkedSub hc)⟩
    rcases hmem r' hw with hw | rfl
    · exact (h.finished_out r' hr').1 hw
    · have hold : s.finished r' = true := hr'
      rw [hfinished] at hold
      cases hold
  · intro row hrow hunfinished
    have hne : row.req ≠ r := fun heq => by
      rcases List.mem_append.1 hrow with hrow | hrow
      · exact hrRunning (List.mem_map.2 ⟨row, hrow, heq⟩)
      · exact hrLast (List.mem_map.2 ⟨row, hrow, heq⟩)
    have hold : row ∈ s.running ++ s.last := by
      rcases List.mem_append.1 hrow with hrow | hrow
      · exact List.mem_append_left _ (hrunning.subset hrow)
      · exact List.mem_append_right _ (hlast.subset hrow)
    exact (h.owned row hold hunfinished).update hne

theorem Owned.keeps {pushed : List (List (Row ρ))} {f g : ρ → Option Nat} {reqs : List ρ}
    {row : InfoRow ρ} (h : Owned pushed f row) (hfg : Slotted f reqs g) : Owned pushed g row :=
  ⟨hfg.keeps _ _ h.slot, h.seqLen, h.outputId, h.freshest⟩

/-- The rows of a prefill batch, with the running requests or without. -/
theorem extendRows_pushable {size : Nat} {s : State ρ} (h : Inv size s)
    {admitted : List (Admission ρ)} {truncated : List ρ} (hadmits : Admits s admitted truncated)
    (mixed : Bool) {reqPoolIdx : ρ → Option Nat}
    (hslotted : Slotted s.reqPoolIdx (admitted.map (·.req)) reqPoolIdx) :
    Pushable (history s) reqPoolIdx
      (extendRows reqPoolIdx admitted ++ if mixed then decodeRows s else []) := by
  have hdecode := decodeRows_pushable h
  have hdecoding : ∀ entry ∈ (if mixed then decodeRows s else []), entry ∈ decodeRows s := by
    intro entry hentry
    cases mixed with
    | false => cases hentry
    | true => exact hentry
  have hreqs : (extendRows reqPoolIdx admitted).map (fun entry => entry.1.req) =
      admitted.map (·.req) := by
    unfold extendRows
    rw [List.map_map]
    rfl
  constructor
  · rw [List.map_append, hreqs, List.nodup_append]
    refine ⟨hadmits.nodup, ?_, ?_⟩
    · cases mixed with
      | false => exact List.nodup_nil
      | true => exact hdecode.nodup
    · intro a ha b hb heq
      obtain ⟨entry, hentry, rfl⟩ := List.mem_map.1 hb
      have hrun := (decodeRows_reqs (List.mem_map.2 ⟨entry, hdecoding entry hentry, rfl⟩)).1
      obtain ⟨adm, hadm, rfl⟩ := List.mem_map.1 ha
      rw [← heq] at hrun
      exact (hadmits.held adm hadm).elim (fun hw => h.apart.waiting_running _ hw hrun)
        (fun hc => h.apart.chunked_running _ hc hrun)
  · intro entry hentry
    rcases List.mem_append.1 hentry with hentry | hentry
    · obtain ⟨adm, hadm, rfl⟩ := List.mem_map.1 hentry
      obtain ⟨i, hi⟩ := Option.isSome_iff_exists.1
        (hslotted.given adm.req (List.mem_map.2 ⟨adm, hadm, rfl⟩))
      show reqPoolIdx adm.req = some ((reqPoolIdx adm.req).getD 0)
      rw [hi]
      rfl
    · exact hslotted.keeps _ _ (hdecode.slot entry (hdecoding entry hentry))
  · intro entry hentry
    rcases List.mem_append.1 hentry with hentry | hentry
    · obtain ⟨adm, hadm, rfl⟩ := List.mem_map.1 hentry
      exact hadmits.tokens adm hadm
    · exact hdecode.seqLen entry (hdecoding entry hentry)
  · intro entry hentry hids
    rcases List.mem_append.1 hentry with hentry | hentry
    · obtain ⟨adm, hadm, rfl⟩ := List.mem_map.1 hentry
      -- token ids are not negative, so they are no placeholder
      have hnegative : (adm.inputIds.map fun id : Nat => (id : Int)) =
          [-((((reqPoolIdx adm.req).getD 0 : Nat) : Int) + 1)] := hids
      have hmem : -((((reqPoolIdx adm.req).getD 0 : Nat) : Int) + 1) ∈
          adm.inputIds.map fun id : Nat => (id : Int) := by
        rw [hnegative]
        exact List.mem_singleton_self _
      obtain ⟨id, -, hid⟩ := List.mem_map.1 hmem
      omega
    · exact hdecode.fresh entry (hdecoding entry hentry) hids

theorem pushExtend_inv {size perDpBs : Nat} {s s' : State ρ} (h : Inv size s)
    {admitted : List (Admission ρ)} {truncated : List ρ} {mixed : Bool}
    (hadmits : Admits s admitted truncated)
    (hroom : ∀ d, ((admitted.map (·.req) ++
      if mixed then (decodeRows (mergeLast s)).map (·.1.req) else []).filter
        fun r => cfg.dpRank r = d).length ≤ perDpBs)
    (hpush : pushExtend cfg perDpBs admitted truncated mixed s = some s') : Inv size s' := by
  let m := mergeLast s
  have hm : Inv size m := mergeLast_inv h
  have hadmits' : Admits m admitted truncated :=
    ⟨hadmits.nodup, hadmits.held, hadmits.tokens, hadmits.truncated_nodup, hadmits.truncated_subset⟩
  obtain ⟨slots, halloc, rfl⟩ := Option.map_eq_some_iff.1 hpush
  obtain ⟨hslots, hslotted⟩ := allocSlots_spec cfg hadmits.nodup hm.slots halloc
  let rows := extendRows slots.2 admitted ++ if mixed then decodeRows m else []
  have hrows : Pushable (history m) slots.2 rows := extendRows_pushable hm hadmits' mixed hslotted
  have hreqs : (extendRows slots.2 admitted).map (fun entry => entry.1.req) =
      admitted.map (·.req) := by
    unfold extendRows
    rw [List.map_map]
    rfl
  have hall : (rows.map fun entry => entry.1.req) = admitted.map (·.req) ++
      if mixed then (decodeRows (mergeLast s)).map (·.1.req) else [] := by
    rw [List.map_append, hreqs]
    cases mixed with
    | false => rfl
    | true => rfl
  have hfits := room_of_reqs cfg hall hroom
  have hapart := hm.apart
  have hadmitted : ∀ r ∈ admitted.map (·.req), r ∉ m.running.map (·.req) := by
    intro r hr hrun
    obtain ⟨adm, hadm, rfl⟩ := List.mem_map.1 hr
    exact (hadmits.held adm hadm).elim (fun hw => hapart.waiting_running _ hw hrun)
      (fun hc => hapart.chunked_running _ hc hrun)
  have hmem : ∀ r ∈ rows.map (fun entry => entry.1.req),
      r ∈ admitted.map (·.req) ∨ (mixed = true ∧ r ∈ m.running.map (·.req)) := by
    intro r hr
    rw [List.map_append, hreqs, List.mem_append] at hr
    rcases hr with hr | hr
    · exact .inl hr
    · cases mixed with
      | false => cases hr
      | true => exact .inr ⟨rfl, (decodeRows_reqs hr).1⟩
  have hrunning : ∀ r ∈ (if mixed then [] else m.running).map (·.req),
      mixed = false ∧ r ∈ m.running.map (·.req) := by
    intro r hr
    cases mixed with
    | false => exact ⟨rfl, hr⟩
    | true => cases hr
  have hhistory : s.executed.map Prod.fst ++ (s.inputQueue ++ [workerBatch cfg perDpBs rows]) =
      history m ++ [workerBatch cfg perDpBs rows] := by
    rw [← List.append_assoc]
    rfl
  constructor
  · constructor
    · exact hapart.waiting_nodup.filter _
    · show (_ ++ truncated).Nodup
      rw [List.nodup_append]
      refine ⟨hapart.chunked_nodup.filter _, hadmits.truncated_nodup, ?_⟩
      intro a ha b hb heq
      have hkept := (List.mem_filter.1 ha).2
      rw [decide_eq_true_eq] at hkept
      exact hkept (heq ▸ hadmits.truncated_subset b hb)
    · show ((if mixed then [] else m.running).map (·.req)).Nodup
      cases mixed with
      | false => exact hapart.running_nodup
      | true => exact List.nodup_nil
    · exact hrows.outputs_nodup cfg hfits
    · intro r hr hc
      obtain ⟨hw, hkept⟩ := List.mem_filter.1 hr
      rw [decide_eq_true_eq] at hkept
      rcases List.mem_append.1 hc with hc | hc
      · exact hapart.waiting_chunked r hw (List.mem_filter.1 hc).1
      · exact hkept (hadmits.truncated_subset r hc)
    · intro r hr hrun
      exact hapart.waiting_running r (List.mem_filter.1 hr).1 (hrunning r hrun).2
    · intro r hr hlast
      obtain ⟨hw, hkept⟩ := List.mem_filter.1 hr
      rw [decide_eq_true_eq] at hkept
      rcases hmem r ((hrows.outputs_reqs cfg hfits).1 hlast) with hadm | ⟨-, hrun⟩
      · exact hkept hadm
      · exact hapart.waiting_running r hw hrun
    · intro r hr hrun
      rcases List.mem_append.1 hr with hc | hc
      · exact hapart.chunked_running r (List.mem_filter.1 hc).1 (hrunning r hrun).2
      · exact hadmitted r (hadmits.truncated_subset r hc) (hrunning r hrun).2
    · intro r hlast hrun
      obtain ⟨hplain, hrun'⟩ := hrunning r hrun
      rcases hmem r ((hrows.outputs_reqs cfg hfits).1 hlast) with hadm | ⟨hmixed, -⟩
      · exact hadmitted r hadm hrun'
      · rw [hplain] at hmixed
        cases hmixed
  · exact hslots
  · intro r hr
    obtain ⟨hw, hkept⟩ := List.mem_filter.1 hr
    rw [decide_eq_true_eq] at hkept
    show slots.2 r = none
    rw [hslotted.others r hkept]
    exact hm.waiting_none r hw
  · intro r hr
    have hout := hm.finished_out r hr
    have hnot : r ∉ admitted.map (·.req) := fun hin => by
      obtain ⟨adm, hadm, rfl⟩ := List.mem_map.1 hin
      exact (hadmits.held adm hadm).elim hout.1 hout.2
    show slots.2 r = none
    rw [hslotted.others r hnot]
    exact hm.finished_none r hr
  · intro r hr
    have hout := hm.finished_out r hr
    refine ⟨fun hw => hout.1 (List.mem_filter.1 hw).1, fun hc => ?_⟩
    rcases List.mem_append.1 hc with hc | hc
    · exact hout.2 (List.mem_filter.1 hc).1
    · obtain ⟨adm, hadm, rfl⟩ := List.mem_map.1 (hadmits.truncated_subset r hc)
      exact (hadmits.held adm hadm).elim hout.1 hout.2
  · intro row hrow hunfinished
    show Owned (s.executed.map Prod.fst ++ (s.inputQueue ++ [workerBatch cfg perDpBs rows]))
      slots.2 row
    rw [hhistory]
    rcases List.mem_append.1 hrow with hrow | hrow
    · obtain ⟨hplain, hrun⟩ := hrunning row.req (List.mem_map.2 ⟨row, hrow, rfl⟩)
      have hold : row ∈ m.running := by
        rw [hplain] at hrow
        exact hrow
      apply hrows.owned_other cfg hslots
      · exact (hm.owned row (List.mem_append_left _ hold) hunfinished).keeps hslotted
      · intro hin
        rcases hmem row.req hin with hadm | ⟨hmixed, -⟩
        · exact hadmitted row.req hadm hrun
        · rw [hplain] at hmixed
          cases hmixed
    · exact hrows.owned_outputs cfg hfits hrow
  · intro batch hbatch
    have hbatch' : batch ∈ history m ++ [workerBatch cfg perDpBs rows] := by
      rw [← hhistory]
      exact hbatch
    rcases List.mem_append.1 hbatch' with hbatch | hbatch
    · exact hm.batches batch hbatch
    · rw [List.mem_singleton.1 hbatch]
      exact ⟨_, hrows.batchOk cfg hslots⟩
  · show ∀ before batch after, s.executed.map Prod.fst ++
      (s.inputQueue ++ [workerBatch cfg perDpBs rows]) = before ++ batch :: after → _
    rw [hhistory]
    exact placed_append hm.placed (hrows.placed cfg)
  · exact hm.map_eq
  · exact hm.tokens

theorem execute_inv {size : Nat} {s : State ρ} (h : Inv size s) {batch : List (Row ρ)}
    {rest : List (List (Row ρ))} {nextTokenIds : List Int} (hqueue : s.inputQueue = batch :: rest)
    (hlen : nextTokenIds.length = batch.length) :
    Inv size (execute batch rest nextTokenIds s) := by
  have hhistory : history (execute batch rest nextTokenIds s) = history s := by
    unfold history execute
    rw [hqueue, List.map_append, List.append_assoc]
    rfl
  constructor
  · exact h.apart
  · exact h.slots
  · exact h.waiting_none
  · exact h.finished_none
  · exact h.finished_out
  · rw [hhistory]
    exact h.owned
  · rw [hhistory]
    exact h.batches
  · rw [hhistory]
    exact h.placed
  · show setFutureTokenIds s.map batch nextTokenIds = _
    rw [h.map_eq]
    unfold execute replay
    rw [List.foldl_append]
    rfl
  · intro entry hentry
    rcases List.mem_append.1 hentry with hentry | hentry
    · exact h.tokens entry hentry
    · rw [List.mem_singleton.1 hentry]
      exact hlen

theorem filter_ne_not_mem {α : Type} (req : α → ρ) (rows : List α) (r : ρ) :
    r ∉ (rows.filter fun row => req row ≠ r).map req := by
  intro hr
  obtain ⟨row, hrow, heq⟩ := List.mem_map.1 hr
  have hne := (List.mem_filter.1 hrow).2
  rw [decide_eq_true_eq] at hne
  exact hne heq

theorem Step.inv {size : Nat} {s s' : State ρ} (hstep : Step cfg s s') (h : Inv size s) :
    Inv size s' := by
  cases hstep with
  | arrive r hwaiting hchunked hrunning hlast hfinished hslot =>
    have hapart := h.apart
    have hmem : ∀ r' ∈ s.waiting ++ [r], r' ∈ s.waiting ∨ r' = r := fun r' hr' => by
      simpa using hr'
    refine { h with apart := ?_, waiting_none := ?_, finished_out := ?_ }
    · refine { hapart with
        waiting_nodup := ?_, waiting_chunked := ?_, waiting_running := ?_, waiting_last := ?_ }
      · rw [List.nodup_append]
        refine ⟨hapart.waiting_nodup, List.nodup_singleton r, ?_⟩
        intro a ha b hb heq
        rw [List.mem_singleton] at hb
        exact hwaiting (by rwa [← hb, ← heq])
      · exact fun r' hr' => (hmem r' hr').elim (hapart.waiting_chunked r') fun heq => heq ▸ hchunked
      · exact fun r' hr' => (hmem r' hr').elim (hapart.waiting_running r') fun heq => heq ▸ hrunning
      · exact fun r' hr' => (hmem r' hr').elim (hapart.waiting_last r') fun heq => heq ▸ hlast
    · exact fun r' hr' => (hmem r' hr').elim (h.waiting_none r') fun heq => heq ▸ hslot
    · intro r' hr'
      refine ⟨fun hw => (hmem r' hw).elim (h.finished_out r' hr').1 fun heq => ?_,
        (h.finished_out r' hr').2⟩
      have hold : s.finished r' = true := hr'
      rw [heq, hfinished] at hold
      cases hold
  | abortWaiting r =>
    have hapart := h.apart
    have hsub : ∀ r' ∈ s.waiting.filter (· ≠ r), r' ∈ s.waiting := fun r' hr' =>
      (List.mem_filter.1 hr').1
    refine { h with
      apart := { hapart with
        waiting_nodup := hapart.waiting_nodup.filter _
        waiting_chunked := fun r' hr' => hapart.waiting_chunked r' (hsub r' hr')
        waiting_running := fun r' hr' => hapart.waiting_running r' (hsub r' hr')
        waiting_last := fun r' hr' => hapart.waiting_last r' (hsub r' hr') }
      waiting_none := fun r' hr' => h.waiting_none r' (hsub r' hr')
      finished_out := fun r' hr' =>
        ⟨fun hw => (h.finished_out r' hr').1 (hsub r' hw), (h.finished_out r' hr').2⟩ }
  | extend perDpBs admitted truncated mixed hadmits hroom hpush =>
    exact pushExtend_inv cfg h hadmits hroom hpush
  | decode perDpBs hroom => exact pushDecode_inv cfg h hroom
  | dropLast =>
    refine { h with
      apart := { h.apart with
        last_nodup := List.nodup_nil
        waiting_last := fun r _ hl => by cases hl
        last_running := fun r hl => by cases hl }
      owned := fun row hrow hfinished => h.owned row ?_ hfinished }
    rw [List.append_nil] at hrow
    exact List.mem_append_left _ hrow
  | finish r hheld hchunked hfree => exact finish_inv h hheld hchunked hfree
  | retract r requeue hheld hfinished hfree =>
    obtain ⟨i, hslot, rfl⟩ := freeSlot_eq hfree
    refine retire_inv h requeue s.chunked _ s.last hfinished hfree (List.Sublist.refl _)
      List.filter_sublist (List.Sublist.refl _) ?_ (filter_ne_not_mem (·.req) s.running r) ?_
    · exact fun hc => h.apart.chunked_running r hc hheld
    · exact fun hl => h.apart.last_running r hl hheld
  | retireChunked r requeue hheld hfree =>
    obtain ⟨i, hslot, rfl⟩ := freeSlot_eq hfree
    have hfinished : s.finished r = false := by
      cases hf : s.finished r with
      | false => rfl
      | true => exact absurd hheld (h.finished_out r hf).2
    have hout : r ∉ s.chunked.filter (· ≠ r) := fun hmem => by
      have hne := (List.mem_filter.1 hmem).2
      rw [decide_eq_true_eq] at hne
      exact hne rfl
    exact retire_inv h requeue _ s.running _ hfinished hfree List.filter_sublist
      (List.Sublist.refl _) List.filter_sublist hout (h.apart.chunked_running r hheld)
      (filter_ne_not_mem (·.req) s.last r)
  | execute batch rest nextTokenIds hqueue hlen => exact execute_inv h hqueue hlen

theorem Reachable.inv {size : Nat} {s : State ρ} (h : Reachable cfg size s) : Inv size s := by
  induction h with
  | initial => exact initial_inv size
  | step _ hstep ih => exact hstep.inv cfg ih

/-- In every reachable state, when the batch at the head of the queue is executed, a
placeholder of a request becomes the token that the last executed batch with the request
sampled for it; and padding rows do not change the map. -/
theorem Reachable.resolves {size : Nat} {s : State ρ} (h : Reachable cfg size s)
    {batch : List (Row ρ)} {rest : List (List (Row ρ))} (hqueue : s.inputQueue = batch :: rest) :
    (∀ row ∈ batch, ∀ r, row.req = some r → row.inputIds = [-(row.reqPoolIdx + 1)] →
      ∃ t, lastToken s.executed r = some t ∧ resolveFutureTokenIds row.inputIds s.map = [t]) ∧
    ∀ nextTokenIds, setFutureTokenIds s.map batch nextTokenIds =
      ((batch.zip nextTokenIds).filter fun write => write.1.req.isSome).foldl writeToken s.map := by
  have hinv := h.inv cfg
  have hsplit : history s = s.executed.map Prod.fst ++ batch :: rest := by
    unfold history
    rw [hqueue]
  obtain ⟨slot, hbatch⟩ := hinv.batches batch (by rw [hsplit]; simp)
  have hexecuted : ∀ entry ∈ s.executed,
      entry.2.length = entry.1.length ∧ ∃ slot, BatchOk size slot entry.1 := fun entry hentry => by
    refine ⟨hinv.tokens entry hentry, hinv.batches entry.1 ?_⟩
    rw [hsplit]
    exact List.mem_append_left _ (List.mem_map_of_mem hentry)
  constructor
  · intro row hrow r hreq hids
    obtain ⟨-, hidx, hlt⟩ := hbatch.real row hrow r hreq
    rw [hidx] at hids
    have hfresh := hinv.placed _ _ _ hsplit row hrow r (slot r) hreq hidx hids
    obtain ⟨t, hlast, hresolve⟩ :=
      resolveToken_freshest hlt (List.length_replicate ..) hexecuted hfresh
    refine ⟨t, hlast, ?_⟩
    unfold resolveFutureTokenIds
    rw [hids, hinv.map_eq, List.map_singleton, hresolve]
  · exact fun nextTokenIds => setFutureTokenIds_real s.map hbatch nextTokenIds

end

def oneRank : Config Nat where
  dpSize := 1
  dpRank _ := 0
  dpRank_lt _ := Nat.one_pos

def prefillOf (r : Nat) (s : State Nat) : State Nat :=
  (pushExtend oneRank 1 [⟨r, 0, 0, 2, [7, 8]⟩] [] false
    { s with waiting := s.waiting ++ [r] }).getD s

def finishOf (r : Nat) (s : State Nat) : State Nat :=
  { (freeSlot r s).getD s with finished := Function.update s.finished r true }

def executeHead (token : Int) (s : State Nat) : State Nat :=
  execute (s.inputQueue.headD []) s.inputQueue.tail [token] s

/-- Request 0 is prefilled and decodes. -/
def firstRequest : State Nat :=
  pushDecode oneRank 1 (prefillOf 0 (initial 1))

/-- Request 0 finishes with its prefill; request 1 takes the slot while the batch in which
request 0 decodes is still in the queue. -/
def slotReused : State Nat :=
  pushDecode oneRank 1 (prefillOf 1 (finishOf 0 (executeHead 42 firstRequest)))

theorem room_one {reqs : List Nat} (h : reqs.length ≤ 1) (d : Nat) :
    (reqs.filter fun r => oneRank.dpRank r = d).length ≤ 1 :=
  (List.length_filter_le _ _).trans h

theorem firstRequest_reachable : Reachable oneRank 1 firstRequest := by
  have hinitial : Reachable oneRank 1 (initial 1) := .initial
  have harrive := hinitial.step
    (.arrive 0 (by decide) (by decide) (by decide) (by decide) rfl rfl)
  have hprefill : Reachable oneRank 1 (prefillOf 0 (initial 1)) :=
    harrive.step (.extend 1 [⟨0, 0, 0, 2, [7, 8]⟩] [] false
      ⟨by decide, by decide, by decide, by decide, by decide⟩ (room_one (by decide)) rfl)
  exact hprefill.step (.decode 1 (room_one (by decide)))

theorem slotReused_reachable : Reachable oneRank 1 slotReused := by
  have hexecute : Reachable oneRank 1 (executeHead 42 firstRequest) :=
    firstRequest_reachable.step (.execute _ _ _ rfl rfl)
  have hfinish : Reachable oneRank 1 (finishOf 0 (executeHead 42 firstRequest)) :=
    hexecute.step (.finish 0 (by decide) (by decide) rfl)
  have harrive := hfinish.step
    (.arrive 1 (by decide) (by decide) (by decide) (by decide) rfl rfl)
  have hprefill : Reachable oneRank 1
      (prefillOf 1 (finishOf 0 (executeHead 42 firstRequest))) :=
    harrive.step (.extend 1 [⟨1, 0, 0, 2, [7, 8]⟩] [] false
      ⟨by decide, by decide, by decide, by decide, by decide⟩ (room_one (by decide)) rfl)
  exact hprefill.step (.decode 1 (room_one (by decide)))

/-- The batch that decodes for request 1 is resolved to the token of its own prefill. -/
theorem Reachable.resolves_slotReused :
    ∃ t, lastToken (executeHead 50 (executeHead 43 slotReused)).executed 1 = some t ∧
      resolveFutureTokenIds [-1] (executeHead 50 (executeHead 43 slotReused)).map = [t] := by
  have hdecode : Reachable oneRank 1 (executeHead 43 slotReused) :=
    slotReused_reachable.step (.execute _ _ _ rfl rfl)
  have hprefill : Reachable oneRank 1 (executeHead 50 (executeHead 43 slotReused)) :=
    hdecode.step (.execute _ _ _ rfl rfl)
  have hqueue : (executeHead 50 (executeHead 43 slotReused)).inputQueue =
      [⟨some 1, 3, 0, [-1]⟩] :: [] := rfl
  exact (hprefill.resolves oneRank hqueue).1 _ (List.mem_singleton_self _) 1 rfl rfl

end SglJax.Managers.FutureTokens
