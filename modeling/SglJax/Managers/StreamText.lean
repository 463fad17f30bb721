import SglJax.Foundation.Utf8Stream
import SglJax.Managers.StreamDelivery

/-! The text that a request is sent over its messages, against the text of all its tokens.
The tokens are strings of bytes, and a message may end inside a character. -/
namespace SglJax.Managers.StreamOutput

open Detokenizer
open Utf8 (decode decodings pieces replacement Complete Cuts Uncut)

/-! ### Texts -/

/-- The bytes that are decoded for ids. -/
def decodedBytes (bytes : Nat → List UInt8) (allSpecialIds : List Nat) (flags : Flags)
    (ids : List Nat) : List UInt8 :=
  (processSpecialTokensSpaces ids flags.skipSpecialTokens allSpecialIds).flatMap bytes

def unsent (s : DecodeStatus) : DecodeStatus := { s with sentOffset := 0 }

/-- `output_str` of a message, before the part that is already sent is cut off. -/
def outputStr (tokenizer : Tokenizer) (flags : Flags) (status : Option DecodeStatus)
    (entry : Entry) : Option Text :=
  (step tokenizer flags (status.map unsent) entry).map fun sent => sent.2.outputStr

/-- `output_str` of all messages. -/
def outputStrs (tokenizer : Tokenizer) : Option DecodeStatus → List (Flags × Entry) → List Text
  | _, [] => []
  | status, (flags, entry) :: rest =>
    match step tokenizer flags status entry, outputStr tokenizer flags status entry with
    | some (s, _), some text => text :: outputStrs tokenizer (some s) rest
    | _, _ => []

theorem ReqState.collect_text (outputs : List Output) :
    (ReqState.collect outputs).text = (outputs.map Output.outputStr).flatten := by
  have hfold : ∀ state : ReqState, (outputs.foldl handleBatchOutput state).text =
      state.text ++ (outputs.map Output.outputStr).flatten := by
    induction outputs with
    | nil => simp
    | cons output rest ih =>
      intro state
      rw [List.foldl_cons, ih, List.map_cons, List.flatten_cons, ← List.append_assoc]
      rfl
  exact hfold new

theorem receive_unsent (entry : Entry) (status : Option DecodeStatus) :
    DecodeStatus.receive entry (status.map unsent) =
      unsent (DecodeStatus.receive entry status) := by
  cases status <;> rfl

section Emit

variable {s : DecodeStatus} {entry : Entry}

theorem trimText_of_stop (hstop : entry.stop = none) (text : Text) :
    entry.trimText text = text := by
  unfold Entry.trimText
  rw [hstop]

theorem stopsAtToken_of_stop (hstop : entry.stop = none) : entry.stopsAtToken = false := by
  unfold Entry.stopsAtToken
  rw [hstop]

/-- Nothing is trimmed, so the whole text is sent as far as it was not. -/
theorem emit_eq (hstop : entry.stop = none) (text : Text) :
    s.emit entry text =
      ({ (if entry.advances text then s.advance text else s) with
          sentOffset := (s.decodedText ++ text).length },
        (s.decodedText ++ text).drop s.sentOffset) := by
  unfold DecodeStatus.emit findPrintableText
  dsimp only
  rw [trimText_of_stop hstop]
  by_cases hadvances : entry.advances text = true
  · rw [if_pos hadvances, if_pos hadvances, List.append_nil]
    rfl
  · rw [if_neg hadvances, if_neg hadvances, ite_self]

theorem not_stop_none (req : Req) (ids : List Nat) : (req.entry none ids).stop = none := by
  unfold Entry.stop Req.entry
  dsimp only
  split <;> rfl

end Emit

/-! ### One message -/

section Bytes

variable (bytes : Nat → List UInt8) (allSpecialIds : List Nat)

/-- The text of `committed` is read and the ids `pending` are not. Both are sent. -/
structure Follows (req : Req) (pre surr pending : List Nat) (committed : List UInt8)
    (status : Option DecodeStatus) : Prop where
  awaits : Awaits req pre surr pending status
  decodedText : ∀ reason ids,
    (DecodeStatus.receive (req.entry reason ids) status).decodedText = decode committed
  sentOffset : ∀ reason ids, (DecodeStatus.receive (req.entry reason ids) status).sentOffset =
    (decode (committed ++ pending.flatMap bytes)).length
  committed : Complete committed
  surr : ∀ flags, Complete (decodedBytes bytes allSpecialIds flags surr)
  plain : ∀ id ∈ pending, id ∉ allSpecialIds

variable {bytes allSpecialIds} {req : Req} {pre surr pending chunk ids : List Nat}
  {committed : List UInt8} {status : Option DecodeStatus} {flags : Flags}

theorem decodedBytes_of_plain (hplain : ∀ id ∈ ids, id ∉ allSpecialIds) (flags : Flags) :
    decodedBytes bytes allSpecialIds flags ids = ids.flatMap bytes := by
  unfold decodedBytes processSpecialTokensSpaces
  split
  · have hkeep : ids.filter (fun id => !allSpecialIds.contains id) = ids := by
      rw [List.filter_eq_self]
      intro id hid
      simpa using hplain id hid
    rw [hkeep]
  · rfl

theorem decodedBytes_append (flags : Flags) (ids ids' : List Nat) :
    decodedBytes bytes allSpecialIds flags (ids ++ ids') =
      decodedBytes bytes allSpecialIds flags ids ++
        decodedBytes bytes allSpecialIds flags ids' := by
  unfold decodedBytes processSpecialTokensSpaces
  split
  · rw [List.filter_append, List.flatMap_append]
  · exact List.flatMap_append

/-- Behind a character boundary the new text is the text of the new ids. -/
theorem newText_eq (hsurr : Complete (decodedBytes bytes allSpecialIds flags surr))
    (hplain : ∀ id ∈ ids, id ∉ allSpecialIds) :
    newText (byteLevel bytes allSpecialIds) flags (surr ++ ids) surr =
      decode (ids.flatMap bytes) := by
  have hread : (byteLevel bytes allSpecialIds).decode flags (surr ++ ids) =
      decode (decodedBytes bytes allSpecialIds flags (surr ++ ids)) := rfl
  have hseen : (byteLevel bytes allSpecialIds).decode flags surr =
      decode (decodedBytes bytes allSpecialIds flags surr) := rfl
  unfold newText
  rw [hread, hseen, decodedBytes_append, hsurr.decode_append, List.drop_left,
    decodedBytes_of_plain hplain]

theorem isComplete_iff (text : Text) :
    isComplete text = true ↔ text ≠ [] ∧ text.getLast? ≠ some replacement := by
  unfold isComplete
  simp

theorem Follows.plain_append (h : Follows bytes allSpecialIds req pre surr pending committed status)
    (hplain : ∀ id ∈ chunk, id ∉ allSpecialIds) : ∀ id ∈ pending ++ chunk, id ∉ allSpecialIds := by
  intro id hid
  rcases List.mem_append.mp hid with hid | hid
  · exact h.plain id hid
  · exact hplain id hid

/-- The text that is sent goes up to the last byte of the message. -/
theorem Follows.emit_eq (h : Follows bytes allSpecialIds req pre surr pending committed status)
    (chunk : List Nat) {reason : Option FinishReason} (hstop : (req.entry reason []).stop = none) :
    let s := DecodeStatus.receive (req.entry reason (pre ++ chunk)) status
    let text := decode ((pending ++ chunk).flatMap bytes)
    s.emit (req.entry reason (pre ++ chunk)) text =
      ({ (if (req.entry reason []).advances text then s.advance text else s) with
          sentOffset := (decode (committed ++ (pending ++ chunk).flatMap bytes)).length },
        (decode (committed ++ (pending ++ chunk).flatMap bytes)).drop
          (decode (committed ++ pending.flatMap bytes)).length) := by
  intro s text
  have hnone : (req.entry reason (pre ++ chunk)).stop = none := hstop
  rw [StreamOutput.emit_eq hnone, h.decodedText, h.sentOffset, ← h.committed.decode_append]
  rfl

theorem Follows.ids_eq (h : Follows bytes allSpecialIds req pre surr pending committed status)
    (chunk : List Nat) {reason : Option FinishReason} (hstop : (req.entry reason []).stop = none) :
    (DecodeStatus.receive (req.entry reason (pre ++ chunk)) status).ids
      (req.entry reason (pre ++ chunk)) = some (surr ++ (pending ++ chunk), surr) := by
  have hnone : (req.entry reason (pre ++ chunk)).stop = none := hstop
  have hkeeps := stopsAtToken_of_stop hnone
  rw [(h.awaits reason chunk).ids_eq (by rw [hkeeps]; exact fun h => by cases h)]
  unfold Reading.trimmed
  rw [hkeeps]
  rfl

/-- What one message sends, and up to where its text goes. -/
theorem Follows.step_eq (h : Follows bytes allSpecialIds req pre surr pending committed status)
    (flags : Flags) {reason : Option FinishReason} (hstop : (req.entry reason []).stop = none)
    (hplain : ∀ id ∈ chunk, id ∉ allSpecialIds) :
    (∃ output, step (byteLevel bytes allSpecialIds) flags status (req.entry reason (pre ++ chunk)) =
        some (((DecodeStatus.receive (req.entry reason (pre ++ chunk)) status).emit
          (req.entry reason (pre ++ chunk)) (decode ((pending ++ chunk).flatMap bytes))).1, output) ∧
        output.outputStr = (decode (committed ++ (pending ++ chunk).flatMap bytes)).drop
          (decode (committed ++ pending.flatMap bytes)).length) ∧
      outputStr (byteLevel bytes allSpecialIds) flags status (req.entry reason (pre ++ chunk)) =
        some (decode (committed ++ (pending ++ chunk).flatMap bytes)) := by
  have hids := h.ids_eq chunk hstop
  have hemit := h.emit_eq chunk hstop
  have hnew := newText_eq (h.surr flags) (h.plain_append hplain)
  dsimp only at hemit
  constructor
  · unfold step
    dsimp only
    rw [hids, Option.map_some]
    unfold DecodeStatus.send
    dsimp only
    rw [hnew]
    refine ⟨_, rfl, ?_⟩
    dsimp only
    rw [hemit]
  · have hunsent : (unsent (DecodeStatus.receive (req.entry reason (pre ++ chunk)) status)).ids
        (req.entry reason (pre ++ chunk)) = some (surr ++ (pending ++ chunk), surr) := hids
    have hnone : (req.entry reason (pre ++ chunk)).stop = none := hstop
    unfold outputStr step
    dsimp only
    rw [receive_unsent, hunsent, Option.map_some, Option.map_some]
    unfold DecodeStatus.send
    dsimp only
    rw [hnew, StreamOutput.emit_eq hnone]
    dsimp only [unsent]
    rw [h.decodedText, ← h.committed.decode_append, List.drop_zero]

/-- A message that is not the last leaves all its ids read, or all its ids pending. -/
theorem Follows.next (h : Follows bytes allSpecialIds req pre surr pending committed status)
    (hplain : ∀ id ∈ chunk, id ∉ allSpecialIds) :
    ∃ surr' pending' committed',
      committed' ++ pending'.flatMap bytes = committed ++ (pending ++ chunk).flatMap bytes ∧
        Follows bytes allSpecialIds req [] surr' pending' committed'
          (some ((DecodeStatus.receive (req.entry none (pre ++ chunk)) status).emit
            (req.entry none (pre ++ chunk)) (decode ((pending ++ chunk).flatMap bytes))).1) := by
  have hids := h.plain_append hplain
  have hreading : ∀ text, Reading
      (if (req.entry none (pre ++ chunk)).advances text then pending ++ chunk else surr)
      (if (req.entry none (pre ++ chunk)).advances text then [] else pending ++ chunk)
      ((DecodeStatus.receive (req.entry none (pre ++ chunk)) status).emit
        (req.entry none (pre ++ chunk)) text).1 := (h.awaits none chunk).emit
  replace hreading := hreading (decode ((pending ++ chunk).flatMap bytes))
  have hemit := h.emit_eq chunk (not_stop_none req [])
  dsimp only at hemit
  by_cases hadvances : (req.entry none []).advances (decode ((pending ++ chunk).flatMap bytes))
  · have hboundary : Complete ((pending ++ chunk).flatMap bytes) :=
      Utf8.complete_of_getLast ((isComplete_iff _).mp hadvances).2
    have hadvances' : (req.entry none (pre ++ chunk)).advances
      (decode ((pending ++ chunk).flatMap bytes)) = true := hadvances
    rw [if_pos hadvances', if_pos hadvances'] at hreading
    rw [if_pos hadvances] at hemit
    refine ⟨pending ++ chunk, [], committed ++ (pending ++ chunk).flatMap bytes,
      List.append_nil _, hreading.awaits req, ?_, ?_, h.committed.append hboundary, ?_, ?_⟩
    · intro reason ids
      rw [hemit, h.committed.decode_append]
      unfold DecodeStatus.receive DecodeStatus.advance
      dsimp only
      exact congrArg (· ++ _) (h.decodedText none (pre ++ chunk))
    · intro reason ids
      rw [hemit]
      exact congrArg (fun bytes => (decode bytes).length) (List.append_nil _).symm
    · intro flags
      rw [decodedBytes_of_plain hids]
      exact hboundary
    · intro id hid
      cases hid
  · have hadvances' : ¬ (req.entry none (pre ++ chunk)).advances
      (decode ((pending ++ chunk).flatMap bytes)) = true := hadvances
    rw [if_neg hadvances', if_neg hadvances'] at hreading
    rw [if_neg hadvances] at hemit
    refine ⟨surr, pending ++ chunk, committed, rfl, hreading.awaits req, ?_, ?_, h.committed,
      h.surr, hids⟩
    · intro reason ids
      rw [hemit]
      exact h.decodedText none (pre ++ chunk)
    · intro reason ids
      rw [hemit]
      rfl

/-! ### All messages -/

/-- The messages send the text of their bytes, each behind what the one before it reached. -/
theorem Follows.steps {last : List Nat} {own : List (Flags × Entry)} {chunks : List (List Nat)}
    {reason : FinishReason} {outputs : List Output}
    (h : Follows bytes allSpecialIds req pre surr pending committed status)
    (hown : own.map Prod.snd = req.entries reason pre chunks last)
    (hstop : (req.entry (some reason) []).stop = none)
    (hplain : ∀ ids ∈ chunks ++ [last], ∀ id ∈ ids, id ∉ allSpecialIds)
    (hsteps : Detokenizer.steps (byteLevel bytes allSpecialIds) status own = some outputs) :
    let front := committed ++ pending.flatMap bytes
    let texts := decodings front ((chunks ++ [last]).map fun ids => ids.flatMap bytes)
    outputStrs (byteLevel bytes allSpecialIds) status own = texts ∧
      outputs.map Output.outputStr = pieces (decode front).length texts := by
  intro front texts
  induction chunks generalizing pre surr pending committed status own outputs with
  | nil =>
    obtain ⟨⟨flags, entry⟩, rest, rfl, hentry, hrest⟩ := List.map_eq_cons_iff.mp hown
    obtain rfl : rest = [] := List.map_eq_nil_iff.mp hrest
    dsimp only at hentry
    subst hentry
    obtain ⟨⟨output, hstep, hsent⟩, htext⟩ :=
      h.step_eq flags hstop (hplain last (by simp))
    rw [steps_cons hstep] at hsteps
    cases hsteps
    have htexts : texts = [decode (committed ++ (pending ++ last).flatMap bytes)] := by
      rw [List.flatMap_append, ← List.append_assoc]
      rfl
    rw [htexts]
    unfold outputStrs
    rw [hstep, htext]
    exact ⟨rfl, by rw [List.map_singleton, hsent]; rfl⟩
  | cons chunk chunks ih =>
    obtain ⟨⟨flags, entry⟩, rest, rfl, hentry, hrest⟩ := List.map_eq_cons_iff.mp hown
    dsimp only at hentry
    subst hentry
    have hchunk := hplain chunk (by simp)
    obtain ⟨⟨output, hstep, hsent⟩, htext⟩ := h.step_eq flags (not_stop_none req []) hchunk
    rw [steps_cons hstep] at hsteps
    obtain ⟨later, hlater, rfl⟩ := Option.map_eq_some_iff.mp hsteps
    obtain ⟨surr', pending', committed', hfront, hnext⟩ := h.next hchunk
    obtain ⟨hwhole, hpieces⟩ := ih hnext hrest
      (fun ids hmem => hplain ids (List.mem_cons_of_mem _ hmem)) hlater
    rw [hfront] at hwhole hpieces
    have hbytes : committed ++ (pending ++ chunk).flatMap bytes = front ++ chunk.flatMap bytes := by
      rw [List.flatMap_append, ← List.append_assoc]
    have htexts : texts = decode (front ++ chunk.flatMap bytes) ::
        decodings (front ++ chunk.flatMap bytes)
          ((chunks ++ [last]).map fun ids => ids.flatMap bytes) := rfl
    rw [htexts, ← hbytes]
    unfold outputStrs
    rw [hstep, htext]
    dsimp only
    rw [hwhole]
    refine ⟨rfl, ?_⟩
    rw [List.map_cons, hsent, hpieces]
    rfl

/-- What a new request expects: all ids of the prompt are read. -/
theorem follows_new {prompt : List Nat} {rid : String} {flags : Flags} {noStopTrim : Bool}
    (hnew : req = .new rid prompt flags noStopTrim)
    (hprompt : ∀ flags, Complete (decodedBytes bytes allSpecialIds flags prompt)) :
    Follows bytes allSpecialIds req req.surrIds req.surrIds [] [] none where
  awaits := awaits_none req
  decodedText := fun _ _ => by rw [hnew]; rfl
  sentOffset := fun _ _ => rfl
  committed := rfl
  surr := by
    intro flags
    have hwhole : prompt = prompt.take (prompt.length - initIncrementalDetokenizationOffset) ++
        req.surrIds := by
      rw [hnew]
      exact (List.take_append_drop _ prompt).symm
    have hcomplete := hprompt flags
    rw [hwhole, decodedBytes_append] at hcomplete
    exact hcomplete.suffix
  plain := fun id hid => by cases hid

/-- The request is sent the text of all its tokens, and nothing that was sent is changed
later, exactly when no message but the last ends inside a character. -/
theorem text_eq_iff {capacity : Nat} {batches : List (List Entry)} {outputs : List (List Output)}
    {rid : String} {prompt : List Nat} {settings : Flags} {noStopTrim : Bool}
    {chunks : List (List Nat)} {last stopped : List Nat} {reason : FinishReason}
    {finishedLen : Option Nat} (hnew : req = .new rid prompt settings noStopTrim)
    (hprompt : ∀ flags, Complete (decodedBytes bytes allSpecialIds flags prompt))
    (hthrough : (req.finished chunks last reason finishedLen).outputIdsThroughStop =
      chunks.flatten ++ stopped)
    (hplain : ∀ id ∈ chunks.flatten ++ stopped, id ∉ allSpecialIds)
    (hkept : (req.entry (some reason) []).stop = none)
    (hserved : Served (.empty capacity) batches)
    (hown : entriesOf rid batches = req.messages chunks last reason finishedLen)
    (hrun : handleAll (byteLevel bytes allSpecialIds) (.empty capacity) batches = some outputs) :
    (ReqState.collect (ownOutputs rid outputs)).text =
          decode ((chunks.flatten ++ stopped).flatMap bytes) ∧
        (∀ (i : Nat) (text : Text),
          (outputStrs (byteLevel bytes allSpecialIds) none (own rid batches))[i]? = some text →
            (ReqState.collect ((ownOutputs rid outputs).take i)).text <+: text) ↔
      Uncut [] ((chunks ++ [stopped]).map fun ids => ids.flatMap bytes) := by
  have hempty : req.outputIds = [] := by rw [hnew]; rfl
  have hready : Req.Ready req.surrIds req := by
    rw [hnew]
    exact Req.ready_new _ _ _ _
  have hmessages : (own rid batches).map Prod.snd =
      req.entries reason req.surrIds chunks stopped := by
    rw [← hready.messages (by rw [hempty]; exact hthrough)]
    exact hown
  have hsteps : steps (byteLevel bytes allSpecialIds) none (own rid batches) =
      some (ownOutputs rid outputs) := handleAll_some hserved hrun rid
  have hall : ∀ ids ∈ chunks ++ [stopped], ∀ id ∈ ids, id ∉ allSpecialIds := by
    intro ids hmem id hid
    apply hplain
    rw [← List.flatten_concat]
    exact List.mem_flatten.mpr ⟨ids, hmem, hid⟩
  have hflat : (chunks.flatten ++ stopped).flatMap bytes =
      ((chunks ++ [stopped]).map fun ids => ids.flatMap bytes).flatten := by
    rw [← List.flatten_concat, ← List.flatMap_def, ← List.flatMap_id, List.flatMap_assoc]
    rfl
  obtain ⟨htexts, hpieces⟩ := (follows_new hnew hprompt).steps hmessages hkept hall hsteps
  rw [List.flatMap_nil, List.append_nil] at htexts hpieces
  have hsent : ∀ i, (ReqState.collect ((ownOutputs rid outputs).take i)).text =
      (pieces 0 (decodings [] (((chunks ++ [stopped]).map fun ids => ids.flatMap bytes).take
        i))).flatten := by
    intro i
    rw [ReqState.collect_text, List.map_take, hpieces, Utf8.pieces_take, Utf8.decodings_take]
    rfl
  have hwhole : (ReqState.collect (ownOutputs rid outputs)).text =
      (pieces 0 (decodings [] ((chunks ++ [stopped]).map fun ids => ids.flatMap bytes))).flatten := by
    rw [ReqState.collect_text, hpieces]
    rfl
  rw [htexts, hflat, hwhole]
  have hiff := Utf8.pieces_decodings_iff
    (Utf8.not_cuts_front_nil ((chunks ++ [stopped]).map fun ids => ids.flatMap bytes).flatten)
  refine ⟨fun h => hiff.mp h.1, fun h => ⟨hiff.mpr h, ?_⟩⟩
  intro i text htext
  rw [hsent]
  exact h.pieces_prefix htext

end Bytes

/-! ### Fixed requests -/

/-- A character of two bytes, cut in the middle: its replacement was sent already. -/
theorem cut_replaced : ∃ outputs,
    (∀ flags, Complete (decodedBytes (fun id => [UInt8.ofNat id]) [] flags [])) ∧
      (request.entry (some ⟨none⟩) []).stop = none ∧
      Served (.empty 1) (alone [[0xc3]] [0xa9]) ∧
      entriesOf "r" (alone [[0xc3]] [0xa9]) = request.messages [[0xc3]] [0xa9] ⟨none⟩ none ∧
      handleAll bytewise (.empty 1) (alone [[0xc3]] [0xa9]) = some outputs ∧
      (ReqState.collect (ownOutputs "r" outputs)).text = [replacement] ∧
      decode [0xc3, 0xa9] = ['é'] :=
  ⟨_, by intro flags; cases flags with | mk skip spaces => cases skip <;> rfl, rfl,
    ⟨by decide, by decide, by unfold Fits; decide⟩, by decide, rfl, by decide, by decide⟩

/-- Cuts inside bytes that are no character, and behind a character. -/
theorem uncut_text : ∃ outputs,
    handleAll bytewise (.empty 1) (alone [[0xe2], [0x82, 0x61, 0xc3, 0xa9]] [0x62]) =
        some outputs ∧
      (ReqState.collect (ownOutputs "r" outputs)).text =
        decode [0xe2, 0x82, 0x61, 0xc3, 0xa9, 0x62] := by
  obtain ⟨outputs, hrun⟩ : ∃ outputs, handleAll (byteLevel (fun id => [UInt8.ofNat id]) [])
      (.empty 1) (alone [[0xe2], [0x82, 0x61, 0xc3, 0xa9]] [0x62]) = some outputs := ⟨_, rfl⟩
  have hserved : Served (.empty 1) (alone [[0xe2], [0x82, 0x61, 0xc3, 0xa9]] [0x62]) :=
    ⟨by decide, by decide, by unfold Fits; decide⟩
  have hprompt : ∀ flags, Complete (decodedBytes (fun id => [UInt8.ofNat id]) [] flags []) := by
    rintro ⟨skip, spaces⟩
    cases skip <;> rfl
  have hown : entriesOf "r" (alone [[0xe2], [0x82, 0x61, 0xc3, 0xa9]] [0x62]) =
      request.messages [[0xe2], [0x82, 0x61, 0xc3, 0xa9]] [0x62] ⟨none⟩ none := by decide
  have huncut : Uncut [] (([[0xe2], [0x82, 0x61, 0xc3, 0xa9]] ++ [[0x62]]).map
      fun ids : List Nat => ids.flatMap fun id => [UInt8.ofNat id]) := by decide
  exact ⟨outputs, hrun, ((text_eq_iff rfl hprompt rfl (fun _ _ => List.not_mem_nil) rfl hserved
    hown hrun).mpr huncut).1⟩

end SglJax.Managers.StreamOutput
