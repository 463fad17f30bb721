import SglJax.Managers.Detokenizer
import Mathlib.Data.Finset.Card

/-! A history of messages, seen from one request: what the detokenizer does for it is a
run of single steps on its own entries, as long as no status is evicted. -/
namespace SglJax.Managers.Detokenizer

/-! ### The part of one request -/

/-- The entry of a request in a message, with the settings that the message is decoded
with. -/
def ownEntry (rid : String) : List Entry → Option (Flags × Entry)
  | [] => none
  | first :: rest =>
    ((first :: rest).find? fun entry => entry.rid == rid).map fun entry => (first.flags, entry)

def own (rid : String) (batches : List (List Entry)) : List (Flags × Entry) :=
  batches.filterMap (ownEntry rid)

def ownOutputs (rid : String) (outputs : List (List Output)) : List Output :=
  outputs.flatten.filter fun output => output.rid == rid

/-- One step after the other. -/
def steps (tokenizer : Tokenizer) : Option DecodeStatus → List (Flags × Entry) →
    Option (List Output)
  | _, [] => some []
  | status, (flags, entry) :: rest =>
    match step tokenizer flags status entry with
    | none => none
    | some (s, output) => (steps tokenizer (some s) rest).map (output :: ·)

/-- The table can hold a status for each request of the history. -/
def Fits (table : Table) (entries : List Entry) : Prop :=
  (table.keys.toFinset ∪ (entries.map Entry.rid).toFinset).card ≤ table.capacity

variable {tokenizer : Tokenizer} {flags : Flags} {table table' : Table} {entry : Entry}
  {entries rest : List Entry}

/-! ### Room in the table -/

theorem Fits.mono (hfits : Fits table entries) (hcapacity : table'.capacity = table.capacity)
    (hkeys : table'.keys.toFinset ⊆ table.keys.toFinset ∪ (entries.map Entry.rid).toFinset)
    (hentries : (rest.map Entry.rid).toFinset ⊆
      table.keys.toFinset ∪ (entries.map Entry.rid).toFinset) : Fits table' rest := by
  unfold Fits at hfits ⊢
  rw [hcapacity]
  exact (Finset.card_le_card (Finset.union_subset hkeys hentries)).trans hfits

/-- A status finds room, so it is put without an eviction. -/
theorem store_eq_put (hfits : Fits table (entry :: rest)) (s : DecodeStatus) :
    store table entry.rid s = table.put entry.rid s := by
  unfold store
  split
  · rfl
  · rename_i hnone
    apply LimitedDict.set_eq_put
    have hnew : entry.rid ∉ table.keys := fun hmem => hnone ((table.mem_keys _).mp hmem)
    have hcard : (insert entry.rid table.keys.toFinset).card ≤ table.capacity := by
      refine (Finset.card_le_card ?_).trans hfits
      intro rid hrid
      rcases Finset.mem_insert.mp hrid with rfl | hold
      · simp
      · exact Finset.mem_union_left _ hold
    rw [Finset.card_insert_of_notMem (by simpa using hnew), List.toFinset_card_of_nodup
      table.nodup] at hcard
    omega

theorem Fits.put (hfits : Fits table (entry :: rest)) (s : DecodeStatus) :
    Fits (table.put entry.rid s) rest := by
  refine hfits.mono rfl ?_ ?_
  · intro rid hrid
    rw [List.mem_toFinset, LimitedDict.mem_keys_put] at hrid
    rcases hrid with rfl | hold
    · simp
    · exact Finset.mem_union_left _ (List.mem_toFinset.mpr hold)
  · intro rid hrid
    apply Finset.mem_union_right
    rw [List.map_cons, List.toFinset_cons]
    exact Finset.mem_insert_of_mem hrid

/-! ### The two loops -/

theorem find_cons_self {rid : String} (hrid : entry.rid = rid) :
    (entry :: rest).find? (fun entry => entry.rid == rid) = some entry := by
  rw [List.find?_cons_of_pos]
  simpa using hrid

theorem find_cons_of_ne {rid : String} (hrid : entry.rid ≠ rid) :
    (entry :: rest).find? (fun entry => entry.rid == rid) =
      rest.find? fun entry => entry.rid == rid := by
  rw [List.find?_cons_of_neg]
  simpa using hrid

theorem find_eq_none_of_notMem {rid : String} (hrid : rid ∉ entries.map Entry.rid) :
    entries.find? (fun entry => entry.rid == rid) = none := by
  rw [List.find?_eq_none]
  intro entry hmem heq
  exact hrid (List.mem_map.mpr ⟨entry, hmem, by simpa using heq⟩)

/-- The table after the first loop. -/
def received (table : Table) (entries : List Entry) (rid : String) : Option DecodeStatus :=
  match entries.find? fun entry => entry.rid == rid with
  | none => table.get rid
  | some entry => some (DecodeStatus.receive entry (table.get rid))

theorem received_cons_self (rest : List Entry) :
    received table (entry :: rest) entry.rid =
      some (DecodeStatus.receive entry (table.get entry.rid)) := by
  unfold received
  rw [find_cons_self rfl]

theorem received_put {rid : String} (hnew : entry.rid ∉ rest.map Entry.rid) :
    received (table.put entry.rid (DecodeStatus.receive entry (table.get entry.rid))) rest rid =
      received table (entry :: rest) rid := by
  by_cases hrid : entry.rid = rid
  · rw [← hrid, received_cons_self]
    unfold received
    rw [find_eq_none_of_notMem hnew]
    exact LimitedDict.get_put_self _ _ _
  · unfold received
    rw [find_cons_of_ne hrid, LimitedDict.get_put_of_ne _ _ (Ne.symm hrid)]

theorem keys_put_subset (s : DecodeStatus) :
    (table.put entry.rid s).keys.toFinset ⊆
      table.keys.toFinset ∪ ((entry :: rest).map Entry.rid).toFinset := by
  intro rid hrid
  rw [List.mem_toFinset, LimitedDict.mem_keys_put] at hrid
  rcases hrid with rfl | hold
  · simp
  · exact Finset.mem_union_left _ (List.mem_toFinset.mpr hold)

theorem keys_rest_subset {s : DecodeStatus}
    (h : table'.keys.toFinset ⊆
      (table.put entry.rid s).keys.toFinset ∪ (rest.map Entry.rid).toFinset) :
    table'.keys.toFinset ⊆ table.keys.toFinset ∪ ((entry :: rest).map Entry.rid).toFinset := by
  refine h.trans (Finset.union_subset (keys_put_subset s) ?_)
  intro rid hrid
  apply Finset.mem_union_right
  rw [List.map_cons, List.toFinset_cons]
  exact Finset.mem_insert_of_mem hrid

theorem rid_ne_of_mem (hnew : entry.rid ∉ rest.map Entry.rid) {other : Entry}
    (hother : other ∈ rest) : other.rid ≠ entry.rid :=
  fun heq => hnew (heq ▸ List.mem_map_of_mem hother)

theorem receiveAll_some {reads : List (List Nat × List Nat)}
    (hnodup : (entries.map Entry.rid).Nodup) (hfits : Fits table entries)
    (h : receiveAll table entries = some (table', reads)) :
    reads.map some = entries.map (fun entry =>
        (DecodeStatus.receive entry (table.get entry.rid)).ids entry) ∧
      (∀ rid, table'.get rid = received table entries rid) ∧
      table'.capacity = table.capacity ∧
      table'.keys.toFinset ⊆ table.keys.toFinset ∪ (entries.map Entry.rid).toFinset := by
  induction entries generalizing table reads with
  | nil =>
    cases h
    exact ⟨rfl, fun _ => rfl, rfl, Finset.subset_union_left⟩
  | cons entry rest ih =>
    obtain ⟨hnew, hrest⟩ := List.nodup_cons.mp hnodup
    unfold receiveAll at h
    dsimp only at h
    split at h
    · cases h
    · rename_i ids hids
      obtain ⟨⟨after, reads'⟩, hafter, heq⟩ := Option.map_eq_some_iff.mp h
      obtain ⟨rfl, rfl⟩ := Prod.mk.inj heq
      rw [store_eq_put hfits] at hafter
      obtain ⟨hreads, hget, hcapacity, hkeys⟩ := ih hrest (hfits.put _) hafter
      refine ⟨?_, ?_, hcapacity, keys_rest_subset hkeys⟩
      · rw [List.map_cons, List.map_cons, hids, hreads]
        congr 1
        apply List.map_congr_left
        intro other hother
        rw [LimitedDict.get_put_of_ne _ _ (rid_ne_of_mem hnew hother)]
      · intro rid
        rw [hget, received_put hnew]

/-- The loop goes through when there are ids to decode for each entry. -/
theorem receiveAll_isSome (hnodup : (entries.map Entry.rid).Nodup) (hfits : Fits table entries)
    (hids : ∀ entry ∈ entries,
      ((DecodeStatus.receive entry (table.get entry.rid)).ids entry).isSome) :
    (receiveAll table entries).isSome := by
  induction entries generalizing table with
  | nil => rfl
  | cons entry rest ih =>
    obtain ⟨hnew, hrest⟩ := List.nodup_cons.mp hnodup
    obtain ⟨ids, heq⟩ := Option.isSome_iff_exists.mp (hids entry List.mem_cons_self)
    unfold receiveAll
    dsimp only
    rw [heq, store_eq_put hfits]
    dsimp only
    rw [Option.isSome_map]
    apply ih hrest (hfits.put _)
    intro other hother
    rw [LimitedDict.get_put_of_ne _ _ (rid_ne_of_mem hnew hother)]
    exact hids other (List.mem_cons_of_mem _ hother)

/-- What the last loop leaves and sends for a request, when `status` is in the table for
each entry. -/
theorem emitAll_some {reads : List (List Nat × List Nat)} {outputs : List Output}
    {status : Entry → DecodeStatus} (hnodup : (entries.map Entry.rid).Nodup)
    (hstatus : ∀ entry ∈ entries, table.get entry.rid = some (status entry))
    (hreads : reads.map some = entries.map fun entry => (status entry).ids entry)
    (h : emitAll tokenizer flags table (entries.zip reads) = some (table', outputs)) (rid : String) :
    match entries.find? fun entry => entry.rid == rid with
    | none => table'.get rid = table.get rid ∧ outputs.filter (fun o => o.rid == rid) = []
    | some entry => ∃ sent,
        ((status entry).ids entry).map ((status entry).send tokenizer flags entry) = some sent ∧
          table'.get rid = some sent.1 ∧ outputs.filter (fun o => o.rid == rid) = [sent.2] := by
  induction entries generalizing table reads outputs with
  | nil =>
    cases h
    exact ⟨rfl, rfl⟩
  | cons entry rest ih =>
    obtain ⟨hnew, hrest⟩ := List.nodup_cons.mp hnodup
    cases reads with
    | nil => cases hreads
    | cons ids reads =>
      rw [List.map_cons, List.map_cons] at hreads
      obtain ⟨hids, hreads⟩ := List.cons.inj hreads
      rw [List.zip_cons_cons] at h
      unfold emitAll at h
      rw [hstatus entry List.mem_cons_self] at h
      obtain ⟨⟨after, sent⟩, hafter, heq⟩ := Option.map_eq_some_iff.mp h
      obtain ⟨rfl, rfl⟩ := Prod.mk.inj heq
      have hothers : ∀ other ∈ rest,
          (table.put entry.rid ((status entry).send tokenizer flags entry ids).1).get other.rid =
            some (status other) := by
        intro other hother
        rw [LimitedDict.get_put_of_ne _ _ (rid_ne_of_mem hnew hother)]
        exact hstatus other (List.mem_cons_of_mem _ hother)
      have hind := ih hrest hothers hreads hafter
      by_cases hrid : entry.rid = rid
      · rw [find_cons_self hrid]
        rw [← hrid, find_eq_none_of_notMem hnew, LimitedDict.get_put_self] at hind
        dsimp only at hind ⊢
        rw [← hids, ← hrid]
        refine ⟨_, rfl, hind.1, ?_⟩
        rw [List.filter_cons_of_pos (by exact beq_self_eq_true entry.rid), hind.2]
      · rw [find_cons_of_ne hrid]
        have hfilter : (((status entry).send tokenizer flags entry ids).2 :: sent).filter
            (fun o => o.rid == rid) = sent.filter fun o => o.rid == rid := by
          apply List.filter_cons_of_neg
          simpa [DecodeStatus.send] using hrid
        rw [hfilter]
        rw [LimitedDict.get_put_of_ne _ _ (Ne.symm hrid)] at hind
        exact hind

theorem emitAll_isSome {reads : List (List Nat × List Nat)} {status : Entry → DecodeStatus}
    (hnodup : (entries.map Entry.rid).Nodup)
    (hstatus : ∀ entry ∈ entries, table.get entry.rid = some (status entry)) :
    (emitAll tokenizer flags table (entries.zip reads)).isSome := by
  induction entries generalizing table reads with
  | nil => rfl
  | cons entry rest ih =>
    obtain ⟨hnew, hrest⟩ := List.nodup_cons.mp hnodup
    cases reads with
    | nil => rfl
    | cons ids reads =>
      rw [List.zip_cons_cons]
      unfold emitAll
      rw [hstatus entry List.mem_cons_self]
      dsimp only
      rw [Option.isSome_map]
      apply ih hrest
      intro other hother
      rw [LimitedDict.get_put_of_ne _ _ (rid_ne_of_mem hnew hother)]
      exact hstatus other (List.mem_cons_of_mem _ hother)

theorem emitAll_keys {reads : List (List Nat × List Nat)} {outputs : List Output}
    (h : emitAll tokenizer flags table (entries.zip reads) = some (table', outputs)) :
    table'.capacity = table.capacity ∧
      table'.keys.toFinset ⊆ table.keys.toFinset ∪ (entries.map Entry.rid).toFinset := by
  induction entries generalizing table reads outputs with
  | nil =>
    cases h
    exact ⟨rfl, Finset.subset_union_left⟩
  | cons entry rest ih =>
    cases reads with
    | nil =>
      cases h
      exact ⟨rfl, Finset.subset_union_left⟩
    | cons ids reads =>
      rw [List.zip_cons_cons] at h
      unfold emitAll at h
      split at h
      · cases h
      · obtain ⟨⟨after, sent⟩, hafter, heq⟩ := Option.map_eq_some_iff.mp h
        obtain ⟨rfl, _⟩ := Prod.mk.inj heq
        obtain ⟨hcapacity, hkeys⟩ := ih hafter
        exact ⟨hcapacity, keys_rest_subset hkeys⟩

/-! ### Messages -/

theorem received_of_mem (hnodup : (entries.map Entry.rid).Nodup) (hmem : entry ∈ entries) :
    received table entries entry.rid =
      some (DecodeStatus.receive entry (table.get entry.rid)) := by
  induction entries with
  | nil => cases hmem
  | cons first rest ih =>
    obtain ⟨hnew, hrest⟩ := List.nodup_cons.mp hnodup
    rcases List.mem_cons.mp hmem with rfl | hmem
    · exact received_cons_self rest
    · have hne := rid_ne_of_mem hnew hmem
      have hsame : received table (first :: rest) entry.rid = received table rest entry.rid := by
        unfold received
        rw [find_cons_of_ne hne.symm]
      rw [hsame, ih hrest hmem]

/-- What a message does to the table and sends for a request. -/
theorem handleBatch_some {outputs : List Output} (hnodup : (entries.map Entry.rid).Nodup)
    (hfits : Fits table entries)
    (h : handleBatchTokenIdOut tokenizer table entries = some (table', outputs)) (rid : String) :
    match ownEntry rid entries with
    | none => table'.get rid = table.get rid ∧ outputs.filter (fun o => o.rid == rid) = []
    | some (flags, entry) => ∃ sent,
        step tokenizer flags (table.get rid) entry = some sent ∧
          table'.get rid = some sent.1 ∧ outputs.filter (fun o => o.rid == rid) = [sent.2] := by
  cases entries with
  | nil => cases h
  | cons first rest =>
    unfold handleBatchTokenIdOut at h
    dsimp only at h
    split at h
    · cases h
    · rename_i after reads hafter
      obtain ⟨hreads, hget, _, _⟩ := receiveAll_some hnodup hfits hafter
      have hstatus : ∀ entry ∈ first :: rest, after.get entry.rid =
          some (DecodeStatus.receive entry (table.get entry.rid)) := by
        intro entry hmem
        rw [hget, received_of_mem hnodup hmem]
      have hsent := emitAll_some hnodup hstatus hreads h rid
      unfold ownEntry
      dsimp only
      cases hfind : (first :: rest).find? fun entry => entry.rid == rid with
      | none =>
        rw [hfind] at hsent
        dsimp only [Option.map_none] at hsent ⊢
        rw [hsent.1, hget]
        unfold received
        rw [hfind]
        exact ⟨rfl, hsent.2⟩
      | some entry =>
        rw [hfind] at hsent
        have hrid : entry.rid = rid := by simpa using List.find?_some hfind
        dsimp only at hsent
        rw [hrid] at hsent
        exact hsent

theorem handleBatch_keys {outputs : List Output} (hnodup : (entries.map Entry.rid).Nodup)
    (hfits : Fits table entries)
    (h : handleBatchTokenIdOut tokenizer table entries = some (table', outputs)) :
    table'.capacity = table.capacity ∧
      table'.keys.toFinset ⊆ table.keys.toFinset ∪ (entries.map Entry.rid).toFinset := by
  cases entries with
  | nil => cases h
  | cons first rest =>
    unfold handleBatchTokenIdOut at h
    dsimp only at h
    split at h
    · cases h
    · rename_i after reads hafter
      obtain ⟨_, _, hcapacity, hkeys⟩ := receiveAll_some hnodup hfits hafter
      obtain ⟨hcapacity', hkeys'⟩ := emitAll_keys h
      refine ⟨hcapacity'.trans hcapacity, hkeys'.trans ?_⟩
      exact Finset.union_subset hkeys Finset.subset_union_right

theorem handleBatch_isSome (hne : entries ≠ []) (hnodup : (entries.map Entry.rid).Nodup)
    (hfits : Fits table entries)
    (hids : ∀ entry ∈ entries,
      ((DecodeStatus.receive entry (table.get entry.rid)).ids entry).isSome) :
    (handleBatchTokenIdOut tokenizer table entries).isSome := by
  cases entries with
  | nil => exact absurd rfl hne
  | cons first rest =>
    obtain ⟨⟨after, reads⟩, hafter⟩ :=
      Option.isSome_iff_exists.mp (receiveAll_isSome hnodup hfits hids)
    unfold handleBatchTokenIdOut
    dsimp only
    rw [hafter]
    obtain ⟨_, hget, _, _⟩ := receiveAll_some hnodup hfits hafter
    apply emitAll_isSome hnodup
    intro entry hmem
    rw [hget, received_of_mem hnodup hmem]

/-! ### Histories -/

/-- Each message holds a request once, and the table never overflows. -/
structure Served (table : Table) (batches : List (List Entry)) : Prop where
  nonempty : ∀ batch ∈ batches, batch ≠ []
  once : ∀ batch ∈ batches, (batch.map Entry.rid).Nodup
  fits : Fits table batches.flatten

theorem Served.head {batch : List Entry} {batches : List (List Entry)}
    (hserved : Served table (batch :: batches)) : Fits table batch := by
  refine hserved.fits.mono rfl Finset.subset_union_left ?_
  intro rid hrid
  apply Finset.mem_union_right
  rw [List.flatten_cons, List.map_append, List.toFinset_append]
  exact Finset.mem_union_left _ hrid

theorem Served.tail {batch : List Entry} {batches : List (List Entry)}
    (hserved : Served table (batch :: batches)) (hcapacity : table'.capacity = table.capacity)
    (hkeys : table'.keys.toFinset ⊆ table.keys.toFinset ∪ (batch.map Entry.rid).toFinset) :
    Served table' batches where
  nonempty := fun b hb => hserved.nonempty b (List.mem_cons_of_mem _ hb)
  once := fun b hb => hserved.once b (List.mem_cons_of_mem _ hb)
  fits := by
    have hflat : ((batch :: batches).flatten.map Entry.rid).toFinset =
        (batch.map Entry.rid).toFinset ∪ (batches.flatten.map Entry.rid).toFinset := by
      rw [List.flatten_cons, List.map_append, List.toFinset_append]
    refine hserved.fits.mono hcapacity ?_ ?_
    · rw [hflat, ← Finset.union_assoc]
      exact hkeys.trans Finset.subset_union_left
    · rw [hflat, ← Finset.union_assoc]
      exact Finset.subset_union_right

/-- What is sent for a request over a history is what its own steps send. -/
theorem handleAll_some {batches : List (List Entry)} {outputs : List (List Output)}
    (hserved : Served table batches) (h : handleAll tokenizer table batches = some outputs)
    (rid : String) :
    steps tokenizer (table.get rid) (own rid batches) = some (ownOutputs rid outputs) := by
  induction batches generalizing table outputs with
  | nil =>
    cases h
    rfl
  | cons batch rest ih =>
    have hnodup := hserved.once batch List.mem_cons_self
    unfold handleAll at h
    split at h
    · cases h
    · rename_i after sent hbatch
      obtain ⟨later, hlater, rfl⟩ := Option.map_eq_some_iff.mp h
      obtain ⟨hcapacity, hkeys⟩ := handleBatch_keys hnodup hserved.head hbatch
      have hsteps := ih (hserved.tail hcapacity hkeys) hlater
      have hone := handleBatch_some hnodup hserved.head hbatch rid
      have houtputs : ownOutputs rid (sent :: later) =
          sent.filter (fun o => o.rid == rid) ++ ownOutputs rid later := by
        unfold ownOutputs
        rw [List.flatten_cons, List.filter_append]
      unfold own at hsteps ⊢
      rw [houtputs, List.filterMap_cons]
      cases hown : ownEntry rid batch with
      | none =>
        rw [hown] at hone
        dsimp only at hone ⊢
        rw [hone.2, List.nil_append, ← hsteps, hone.1]
      | some pair =>
        rw [hown] at hone
        obtain ⟨flags, entry⟩ := pair
        obtain ⟨sentOne, hstep, hget, hfilter⟩ := hone
        dsimp only
        unfold steps
        rw [hstep, hfilter]
        dsimp only
        rw [← hget, hsteps]
        rfl

theorem find_of_mem (hnodup : (entries.map Entry.rid).Nodup) (hmem : entry ∈ entries) :
    entries.find? (fun other => other.rid == entry.rid) = some entry := by
  induction entries with
  | nil => cases hmem
  | cons first rest ih =>
    obtain ⟨hnew, hrest⟩ := List.nodup_cons.mp hnodup
    rcases List.mem_cons.mp hmem with rfl | hmem
    · exact find_cons_self rfl
    · rw [find_cons_of_ne (rid_ne_of_mem hnew hmem).symm, ih hrest hmem]

theorem handleAll_isSome {batches : List (List Entry)} (hserved : Served table batches)
    (hsteps : ∀ rid, (steps tokenizer (table.get rid) (own rid batches)).isSome) :
    (handleAll tokenizer table batches).isSome := by
  induction batches generalizing table with
  | nil => rfl
  | cons batch rest ih =>
    have hnodup := hserved.once batch List.mem_cons_self
    have hids : ∀ entry ∈ batch,
        ((DecodeStatus.receive entry (table.get entry.rid)).ids entry).isSome := by
      intro entry hmem
      have hrun := hsteps entry.rid
      cases batch with
      | nil => cases hmem
      | cons first others =>
        have hown : ownEntry entry.rid (first :: others) = some (first.flags, entry) := by
          unfold ownEntry
          dsimp only
          rw [find_of_mem hnodup hmem, Option.map_some]
        unfold own at hrun
        rw [List.filterMap_cons, hown] at hrun
        dsimp only at hrun
        unfold steps step at hrun
        dsimp only at hrun
        by_contra hnone
        rw [Option.not_isSome_iff_eq_none] at hnone
        rw [hnone] at hrun
        cases hrun
    obtain ⟨⟨after, sent⟩, hbatch⟩ := Option.isSome_iff_exists.mp
      (handleBatch_isSome (hserved.nonempty batch List.mem_cons_self) hnodup hserved.head hids)
    obtain ⟨hcapacity, hkeys⟩ := handleBatch_keys hnodup hserved.head hbatch
    unfold handleAll
    rw [hbatch]
    dsimp only
    rw [Option.isSome_map]
    apply ih (hserved.tail hcapacity hkeys)
    intro rid
    have hone := handleBatch_some hnodup hserved.head hbatch rid
    have hrun := hsteps rid
    unfold own at hrun ⊢
    rw [List.filterMap_cons] at hrun
    cases hown : ownEntry rid batch with
    | none =>
      rw [hown] at hone hrun
      rw [hone.1]
      exact hrun
    | some pair =>
      rw [hown] at hone hrun
      obtain ⟨flags, entry⟩ := pair
      obtain ⟨sentOne, hstep, hget, _⟩ := hone
      dsimp only at hrun
      unfold steps at hrun
      rw [hstep] at hrun
      dsimp only at hrun
      rw [Option.isSome_map] at hrun
      rw [hget]
      exact hrun

end SglJax.Managers.Detokenizer
