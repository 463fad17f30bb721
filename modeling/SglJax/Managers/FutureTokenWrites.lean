import Mathlib.Data.List.Nodup
import SglJax.Managers.FutureTokens

/-! What a batch leaves in the map of future tokens: each of its requests has the entry of
its slot, and nothing else changes. -/
namespace SglJax.Managers.FutureTokens

open Foundation

variable {ρ : Type}

/-- A batch whose requests have the slots `slot`, each its own. -/
structure BatchOk (size : Nat) (slot : ρ → Nat) (batch : List (Row ρ)) : Prop where
  padding : ∀ row ∈ batch, row.req = none → row.seqLen = 0
  real : ∀ row ∈ batch, ∀ r, row.req = some r →
    0 < row.seqLen ∧ row.reqPoolIdx = slot r ∧ slot r < size
  inj : ∀ row ∈ batch, ∀ row' ∈ batch, ∀ r r', row.req = some r → row'.req = some r' →
    slot r = slot r' → r = r'
  nodup : (batch.filterMap Row.req).Nodup

theorem axisIndex_length (n : Nat) : axisIndex n (n : Int) = .error .index := by
  unfold axisIndex
  rw [if_neg (by omega), if_neg (by omega)]

/-- Padding rows are written out of bounds. -/
theorem writeToken_padding (map : List Int) {write : Row ρ × Int} (h : write.1.seqLen = 0) :
    writeToken map write = map := by
  unfold writeToken futureSlot
  rw [if_neg (by omega), axisIndex_length]

theorem writeToken_real (map : List Int) {write : Row ρ × Int} {idx : Nat}
    (hlen : 0 < write.1.seqLen) (hidx : write.1.reqPoolIdx = idx) (hlt : idx + 1 < map.length) :
    writeToken map write = map.set (idx + 1) write.2 := by
  have hslot : (idx : Int) + 1 = ((idx + 1 : Nat) : Int) := by omega
  unfold writeToken futureSlot
  rw [if_pos hlen, hidx, hslot, axisIndex_natCast hlt]

theorem length_writeToken (map : List Int) (write : Row ρ × Int) :
    (writeToken map write).length = map.length := by
  unfold writeToken
  split <;> simp

theorem length_foldl_writeToken (writes : List (Row ρ × Int)) (map : List Int) :
    (writes.foldl writeToken map).length = map.length := by
  induction writes generalizing map with
  | nil => rfl
  | cons write writes ih => rw [List.foldl_cons, ih, length_writeToken]

/-- Writes that are padding or have other slots leave an entry alone. -/
theorem foldl_writeToken_other {size idx : Nat} {writes : List (Row ρ × Int)} {map : List Int}
    (hmap : map.length = size + 2)
    (h : ∀ write ∈ writes, write.1.seqLen = 0 ∨
      ∃ j : Nat, 0 < write.1.seqLen ∧ write.1.reqPoolIdx = j ∧ j < size ∧ j ≠ idx) :
    (writes.foldl writeToken map)[idx + 1]? = map[idx + 1]? := by
  induction writes generalizing map with
  | nil => rfl
  | cons write writes ih =>
    rw [List.foldl_cons]
    have hrest : (writes.foldl writeToken (writeToken map write))[idx + 1]? =
        (writeToken map write)[idx + 1]? :=
      ih (by rw [length_writeToken, hmap]) fun other hother => h other (by simp [hother])
    rw [hrest]
    rcases h write (by simp) with hpad | ⟨j, hlen, hj, hlt, hne⟩
    · rw [writeToken_padding map hpad]
    · rw [writeToken_real map hlen hj (by omega), List.getElem?_set_ne (by omega)]

/-- Padding rows never change the map. -/
theorem setFutureTokenIds_real (map : List Int) {size : Nat} {slot : ρ → Nat}
    {batch : List (Row ρ)} (h : BatchOk size slot batch) (nextTokenIds : List Int) :
    setFutureTokenIds map batch nextTokenIds =
      ((batch.zip nextTokenIds).filter fun write => write.1.req.isSome).foldl writeToken map := by
  have hpadding : ∀ write ∈ batch.zip nextTokenIds, write.1.req = none → write.1.seqLen = 0 :=
    fun write hwrite => h.padding _ (List.of_mem_zip hwrite).1
  unfold setFutureTokenIds
  generalize batch.zip nextTokenIds = writes at hpadding
  induction writes generalizing map with
  | nil => rfl
  | cons write writes ih =>
    have hrest := fun m => ih m fun other hother => hpadding other (by simp [hother])
    rw [List.foldl_cons, List.filter_cons]
    cases hreq : write.1.req with
    | none =>
      rw [writeToken_padding map (hpadding write (by simp) hreq), hrest]
      rfl
    | some r =>
      rw [hrest]
      rfl

/-- The entry of a request that the batch contains is its token. -/
theorem setFutureTokenIds_mem {size : Nat} {slot : ρ → Nat} [DecidableEq ρ]
    {batch : List (Row ρ)} (h : BatchOk size slot batch) {map nextTokenIds : List Int}
    (hmap : map.length = size + 2) (hlen : nextTokenIds.length = batch.length) {row : Row ρ}
    (hrow : row ∈ batch) {r : ρ} (hreq : row.req = some r) :
    ∃ t, tokenOf r (batch, nextTokenIds) = some t ∧
      (setFutureTokenIds map batch nextTokenIds)[slot r + 1]? = some t := by
  have hfst : (batch.zip nextTokenIds).map Prod.fst = batch := List.map_fst_zip (by omega)
  have hfound : ((batch.zip nextTokenIds).find? fun sampled => sampled.1.req = some r).isSome := by
    rw [List.find?_isSome]
    rw [← hfst] at hrow
    obtain ⟨sampled, hsampled, rfl⟩ := List.mem_map.1 hrow
    exact ⟨sampled, hsampled, by simpa using hreq⟩
  obtain ⟨sampled, hfind⟩ := Option.isSome_iff_exists.1 hfound
  obtain ⟨hown, before, after, hzip, -⟩ := List.find?_eq_some_iff_append.1 hfind
  have hown : sampled.1.req = some r := by simpa using hown
  refine ⟨sampled.2, by rw [tokenOf, hfind]; rfl, ?_⟩
  have hmem : ∀ write ∈ batch.zip nextTokenIds, write.1 ∈ batch := fun write hwrite =>
    (List.of_mem_zip hwrite).1
  have hsampled : sampled.1 ∈ batch := hmem sampled (by rw [hzip]; simp)
  obtain ⟨hpos, hidx, hlt⟩ := h.real _ hsampled r hown
  -- the rows behind it have other requests, and so other slots
  have hnodup := h.nodup
  rw [← hfst, hzip] at hnodup
  simp only [List.map_append, List.map_cons, List.filterMap_append, List.filterMap_cons, hown,
    List.nodup_append, List.nodup_cons] at hnodup
  have hafter : ∀ write ∈ after, write.1.seqLen = 0 ∨
      ∃ j : Nat, 0 < write.1.seqLen ∧ write.1.reqPoolIdx = j ∧ j < size ∧ j ≠ slot r :=
    fun write hwrite => by
      have hwriteMem : write.1 ∈ batch := hmem write (by rw [hzip]; simp [hwrite])
      cases hother : write.1.req with
      | none => exact .inl (h.padding _ hwriteMem hother)
      | some r' =>
        obtain ⟨hpos', hidx', hlt'⟩ := h.real _ hwriteMem r' hother
        refine .inr ⟨slot r', hpos', hidx', hlt', fun heq => ?_⟩
        have hsame := h.inj _ hwriteMem _ hsampled r' r hother hown heq
        apply hnodup.2.1.1
        rw [List.mem_filterMap]
        exact ⟨write.1, List.mem_map_of_mem hwrite, by rw [hother, hsame]⟩
  have hbefore : (before.foldl writeToken map).length = size + 2 := by
    rw [length_foldl_writeToken, hmap]
  unfold setFutureTokenIds
  rw [hzip, List.foldl_append, List.foldl_cons,
    foldl_writeToken_other (by rw [length_writeToken, hbefore]) hafter,
    writeToken_real _ hpos hidx (by omega), List.getElem?_set_self (by omega)]

/-- A batch without the slot leaves its entry alone. -/
theorem setFutureTokenIds_not_mem {size idx : Nat} {slot : ρ → Nat} {batch : List (Row ρ)}
    (h : BatchOk size slot batch) {map : List Int} (hmap : map.length = size + 2)
    (nextTokenIds : List Int)
    (hother : ∀ row ∈ batch, row.req.isSome → row.reqPoolIdx ≠ (idx : Int)) :
    (setFutureTokenIds map batch nextTokenIds)[idx + 1]? = map[idx + 1]? := by
  apply foldl_writeToken_other hmap
  intro write hwrite
  have hmem := (List.of_mem_zip hwrite).1
  cases hreq : write.1.req with
  | none => exact .inl (h.padding _ hmem hreq)
  | some r =>
    obtain ⟨hpos, hidx, hlt⟩ := h.real _ hmem r hreq
    refine .inr ⟨slot r, hpos, hidx, hlt, fun heq => ?_⟩
    exact hother _ hmem (by rw [hreq]; rfl) (by rw [hidx, heq])

/-- The last of these batches that contains `r` gives it the slot `idx`, and none behind it
contains `r` or writes the slot. -/
def Freshest (history : List (List (Row ρ))) (r : ρ) (idx : Nat) : Prop :=
  ∃ before batch after, history = before ++ batch :: after ∧
    (∃ row ∈ batch, row.req = some r ∧ row.reqPoolIdx = (idx : Int)) ∧
    ∀ later ∈ after, ∀ row ∈ later,
      row.req ≠ some r ∧ (row.req.isSome → row.reqPoolIdx ≠ (idx : Int))

theorem Freshest.append {history : List (List (Row ρ))} {r : ρ} {idx : Nat}
    (h : Freshest history r idx) {batch : List (Row ρ)}
    (hbatch : ∀ row ∈ batch, row.req ≠ some r ∧ (row.req.isSome → row.reqPoolIdx ≠ (idx : Int))) :
    Freshest (history ++ [batch]) r idx := by
  obtain ⟨before, own, after, rfl, hown, hafter⟩ := h
  refine ⟨before, own, after ++ [batch], by simp, hown, ?_⟩
  intro later hlater
  rcases List.mem_append.1 hlater with hlater | hlater
  · exact hafter later hlater
  · rw [List.mem_singleton.1 hlater]
    exact hbatch

theorem Freshest.last (history : List (List (Row ρ))) {batch : List (Row ρ)} {r : ρ} {idx : Nat}
    {row : Row ρ} (hrow : row ∈ batch) (hreq : row.req = some r) (hidx : row.reqPoolIdx = idx) :
    Freshest (history ++ [batch]) r idx :=
  ⟨history, batch, [], rfl, ⟨row, hrow, hreq, hidx⟩, by simp⟩

/-- The map after some batches. -/
def replay (map : List Int) (executed : List (List (Row ρ) × List Int)) : List Int :=
  executed.foldl (fun map entry => setFutureTokenIds map entry.1 entry.2) map

theorem length_setFutureTokenIds (map : List Int) (batch : List (Row ρ)) (next : List Int) :
    (setFutureTokenIds map batch next).length = map.length :=
  length_foldl_writeToken _ _

theorem length_replay (map : List Int) (executed : List (List (Row ρ) × List Int)) :
    (replay map executed).length = map.length := by
  induction executed generalizing map with
  | nil => rfl
  | cons entry executed ih =>
    show (replay (setFutureTokenIds map entry.1 entry.2) executed).length = _
    rw [ih, length_setFutureTokenIds]

/-- Batches without the slot leave its entry alone. -/
theorem replay_other {size idx : Nat} {executed : List (List (Row ρ) × List Int)}
    {map : List Int} (hmap : map.length = size + 2)
    (hok : ∀ entry ∈ executed, ∃ slot, BatchOk size slot entry.1)
    (hother : ∀ entry ∈ executed, ∀ row ∈ entry.1,
      row.req.isSome → row.reqPoolIdx ≠ (idx : Int)) :
    (replay map executed)[idx + 1]? = map[idx + 1]? := by
  induction executed generalizing map with
  | nil => rfl
  | cons entry executed ih =>
    obtain ⟨slot, hslot⟩ := hok entry (by simp)
    show (replay (setFutureTokenIds map entry.1 entry.2) executed)[idx + 1]? = _
    rw [ih (by rw [length_setFutureTokenIds, hmap]) (fun other h => hok other (by simp [h]))
      (fun other h => hother other (by simp [h]))]
    exact setFutureTokenIds_not_mem hslot hmap _ (hother entry (by simp))

section

variable [DecidableEq ρ]

theorem tokenOf_eq_none {r : ρ} {entry : List (Row ρ) × List Int}
    (h : ∀ row ∈ entry.1, row.req ≠ some r) : tokenOf r entry = none := by
  unfold tokenOf
  rw [Option.map_eq_none_iff, List.find?_eq_none]
  intro sampled hsampled
  simpa using h _ (List.of_mem_zip hsampled).1

/-- After batches the last of which gives `r` a slot, the entry of the slot is the last token
of `r`. -/
theorem replay_freshest {size idx : Nat} {map : List Int} (hmap : map.length = size + 2)
    {executed : List (List (Row ρ) × List Int)}
    (hok : ∀ entry ∈ executed, entry.2.length = entry.1.length ∧ ∃ slot, BatchOk size slot entry.1)
    {r : ρ} (h : Freshest (executed.map Prod.fst) r idx) :
    ∃ t, lastToken executed r = some t ∧ (replay map executed)[idx + 1]? = some t := by
  obtain ⟨before, batch, after, hhistory, ⟨row, hrow, hreq, hidx⟩, hafter⟩ := h
  obtain ⟨done, rest, rfl, rfl, hrest⟩ := List.map_eq_append_iff.1 hhistory
  obtain ⟨entry, later, rfl, rfl, rfl⟩ := List.map_eq_cons_iff.1 hrest
  obtain ⟨hlen, slot, hslot⟩ := hok entry (by simp)
  have hown : slot r = idx := by
    have hreal := (hslot.real row hrow r hreq).2.1
    omega
  have hdone : (replay map done).length = size + 2 := by rw [length_replay, hmap]
  obtain ⟨t, htoken, hentry⟩ := setFutureTokenIds_mem hslot hdone hlen hrow hreq
  refine ⟨t, ?_, ?_⟩
  · unfold lastToken
    have hnone : later.reverse.findSome? (tokenOf r) = none := by
      rw [List.findSome?_eq_none_iff]
      intro other hother
      apply tokenOf_eq_none
      intro row' hrow'
      exact (hafter other.1 (List.mem_map_of_mem (by simpa using hother)) row' hrow').1
    rw [List.reverse_append, List.reverse_cons, List.append_assoc, List.findSome?_append, hnone,
      List.singleton_append, List.findSome?_cons, htoken]
    rfl
  · have hsplit : replay map (done ++ entry :: later) =
        replay (setFutureTokenIds (replay map done) entry.1 entry.2) later := by
      unfold replay
      rw [List.foldl_append, List.foldl_cons]
    rw [hown] at hentry
    rw [hsplit, ← hentry]
    apply replay_other
    · rw [length_setFutureTokenIds, length_replay, hmap]
    · exact fun other hother => (hok other (by simp [hother])).2
    · exact fun other hmem row' hrow' => (hafter other.1 (List.mem_map_of_mem hmem) row' hrow').2

/-- A placeholder is resolved to the last token of its request. -/
theorem resolveToken_freshest {size idx : Nat} {map : List Int} (hlt : idx < size)
    (hmap : map.length = size + 2) {executed : List (List (Row ρ) × List Int)}
    (hok : ∀ entry ∈ executed, entry.2.length = entry.1.length ∧ ∃ slot, BatchOk size slot entry.1)
    {r : ρ} (h : Freshest (executed.map Prod.fst) r idx) :
    ∃ t, lastToken executed r = some t ∧
      resolveToken (replay map executed) (-((idx : Int) + 1)) = t := by
  obtain ⟨t, hlast, hentry⟩ := replay_freshest hmap hok h
  refine ⟨t, hlast, ?_⟩
  unfold resolveToken lookup
  have hplace : (max (-(-((idx : Int) + 1))) 0).toNat = idx + 1 := by omega
  rw [if_pos (by omega), hplace, length_replay, Nat.min_eq_left (by omega), List.getD, hentry]
  rfl

end

end SglJax.Managers.FutureTokens
