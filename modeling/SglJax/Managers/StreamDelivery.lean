import SglJax.Managers.StreamOutput
import SglJax.Managers.DetokenizerFlags

/-! Which ids the tokenizer manager has collected for a request after its last message.
The detokenizer sends all ids behind its read offset in every message, and the offset
moves on only when the text is complete. -/
namespace SglJax.Managers.StreamOutput

open Detokenizer

/-! ### The messages -/

namespace Req

variable {req : Req} {pre chunk ids last : List Nat} {chunks : List (List Nat)}
  {reason : FinishReason} {finishedLen : Option Nat}

/-- The ids of the prompt that are sent along. -/
def surrIds (req : Req) : List Nat :=
  req.originInputIdsUnpadded.drop
    (req.originInputIdsUnpadded.length - initIncrementalDetokenizationOffset)

/-- A message with the given ids. -/
def entry (req : Req) (finishedReason : Option FinishReason) (ids : List Nat) : Entry where
  rid := req.rid
  finishedReason := finishedReason
  decodedText := req.decodedText
  decodeIds := ids
  readOffset := req.surrIds.length
  flags := req.flags
  noStopTrim := req.noStopTrim

/-- The request with more output. -/
def output (req : Req) (ids : List Nat) (finishedReason : Option FinishReason)
    (finishedLen : Option Nat) : Req :=
  { req with
    outputIds := req.outputIds ++ ids
    finishedReason := finishedReason
    finishedLen := finishedLen }

/-- A running request whose next message brings `pre` before the new ids: the end of the
prompt for the first message, nothing for the later ones. -/
structure Ready (pre : List Nat) (req : Req) : Prop where
  finishedLen : req.finishedLen = none
  finishedReason : req.finishedReason = none
  sent : (req.surrOffset = none ∧ req.outputIds = [] ∧ req.sendDecodeIdOffset = 0 ∧
      pre = req.surrIds) ∨
    (pre = [] ∧ req.curDecodeIdsLen = req.outputIds.length ∧
      req.sendDecodeIdOffset = req.surrAndDecodeIds.length ∧
      ∃ surrOffset readOffset, req.surrOffset = some surrOffset ∧
        req.readOffset = some readOffset ∧ readOffset - surrOffset = req.surrIds.length)

theorem ready_new (rid : String) (originInputIdsUnpadded : List Nat) (flags : Flags)
    (noStopTrim : Bool) :
    Ready (new rid originInputIdsUnpadded flags noStopTrim).surrIds
      (new rid originInputIdsUnpadded flags noStopTrim) :=
  ⟨rfl, rfl, .inl ⟨rfl, rfl, rfl, rfl⟩⟩

/-- What one message holds. -/
theorem Ready.streamOutput {finishedReason : Option FinishReason} (h : Ready pre req)
    (hout : (req.output ids finishedReason finishedLen).outputIdsThroughStop =
      req.outputIds ++ chunk) :
    (req.output ids finishedReason finishedLen).streamOutput.2 =
      req.entry finishedReason (pre ++ chunk) := by
  rcases h.sent with ⟨hsurr, hempty, hsend, rfl⟩ |
    ⟨rfl, hcur, hsend, surrOffset, readOffset, hsurr, hread, hoffset⟩
  · have hnone : (req.output ids finishedReason finishedLen).surrOffset = none := hsurr
    have hzero : (req.output ids finishedReason finishedLen).sendDecodeIdOffset = 0 := hsend
    unfold Req.streamOutput initIncrementalDetokenize
    rw [hnone, hout, hempty, hzero, List.nil_append]
    unfold entry surrIds
    simp only [output, List.drop_zero, List.length_drop]
  · have hsome : (req.output ids finishedReason finishedLen).surrOffset = some surrOffset := hsurr
    have hsome' : (req.output ids finishedReason finishedLen).readOffset = some readOffset := hread
    have hcur' : (req.output ids finishedReason finishedLen).curDecodeIdsLen =
        req.outputIds.length := hcur
    have hsend' : (req.output ids finishedReason finishedLen).sendDecodeIdOffset =
        (req.output ids finishedReason finishedLen).surrAndDecodeIds.length := hsend
    unfold Req.streamOutput initIncrementalDetokenize
    rw [hsome, hsome', hout, hcur']
    dsimp only
    rw [hsend', List.drop_left, List.drop_left, hoffset]
    rfl

theorem Ready.generate (h : Ready pre req) (chunk : List Nat) :
    Ready [] (req.generate chunk).streamOutput.1 := by
  have hthrough : (req.generate chunk).outputIdsThroughStop = req.outputIds ++ chunk := by
    unfold outputIdsThroughStop Req.generate
    dsimp only
    rw [h.finishedLen]
  rcases h.sent with ⟨hsurr, -, -, -⟩ | ⟨-, -, -, surrOffset, readOffset, hsurr, hread, hoffset⟩
  · have hnone : (req.generate chunk).surrOffset = none := hsurr
    unfold Req.streamOutput initIncrementalDetokenize
    rw [hnone, hthrough]
    refine ⟨h.finishedLen, h.finishedReason, .inr ⟨rfl, rfl, rfl, _, _, rfl, rfl, ?_⟩⟩
    exact List.length_drop.symm
  · have hsome : (req.generate chunk).surrOffset = some surrOffset := hsurr
    have hsome' : (req.generate chunk).readOffset = some readOffset := hread
    unfold Req.streamOutput initIncrementalDetokenize
    rw [hsome, hsome', hthrough]
    exact ⟨h.finishedLen, h.finishedReason, .inr ⟨rfl, rfl, rfl, _, _, rfl, rfl, hoffset⟩⟩

theorem streamOutput_keeps (req : Req) :
    req.streamOutput.1.entry = req.entry ∧ req.streamOutput.1.outputIds = req.outputIds := by
  unfold Req.streamOutput initIncrementalDetokenize
  dsimp only
  split <;> exact ⟨rfl, rfl⟩

/-- The messages as lists of ids. -/
def entries (req : Req) (reason : FinishReason) :
    List Nat → List (List Nat) → List Nat → List Entry
  | pre, [], last => [req.entry (some reason) (pre ++ last)]
  | pre, chunk :: rest, last => req.entry none (pre ++ chunk) :: entries req reason [] rest last

theorem entries_congr {req req' : Req} (h : req'.entry = req.entry) (reason : FinishReason)
    (pre : List Nat) (chunks : List (List Nat)) (last : List Nat) :
    entries req' reason pre chunks last = entries req reason pre chunks last := by
  induction chunks generalizing pre with
  | nil =>
    unfold entries
    rw [h]
  | cons chunk rest ih =>
    unfold entries
    rw [h, ih]

theorem Ready.messages {stopped : List Nat} (h : Ready pre req)
    (hout : (req.finished chunks last reason finishedLen).outputIdsThroughStop =
      req.outputIds ++ (chunks.flatten ++ stopped)) :
    req.messages chunks last reason finishedLen = req.entries reason pre chunks stopped := by
  induction chunks generalizing pre req with
  | nil =>
    have hone : (req.output last (some reason) finishedLen).streamOutput.2 =
        req.entry (some reason) (pre ++ stopped) := h.streamOutput hout
    unfold Req.messages Req.finished streamChunks entries
    rw [List.nil_append]
    exact congrArg (fun entry => [entry]) hone
  | cons chunk rest ih =>
    have hthrough : (req.output chunk none none).outputIdsThroughStop = req.outputIds ++ chunk := rfl
    have hgenerate : req.generate chunk = req.output chunk none none := by
      unfold Req.generate output
      rw [h.finishedLen, h.finishedReason]
    have hone := h.streamOutput hthrough
    obtain ⟨hentry, hids⟩ := streamOutput_keeps (req.generate chunk)
    have hall : (req.generate chunk).outputIds ++ (rest.flatten ++ stopped) =
        req.outputIds ++ ((chunk :: rest).flatten ++ stopped) := by
      unfold Req.generate
      simp only [List.flatten_cons, List.append_assoc]
    have hrest := ih (h.generate chunk) (by rw [hids, hall]; exact hout)
    have hsame : (req.generate chunk).streamOutput.1.entry = req.entry := hentry
    rw [entries_congr hsame] at hrest
    unfold entries
    rw [← hone, ← hgenerate, ← hrest]
    rfl

end Req

/-! ### The ids that are sent -/

/-- The surrounding ids of a status and the ids it has not read. -/
structure Reading (surr pending : List Nat) (s : DecodeStatus) : Prop where
  ids : ∃ front, s.decodeIds = front ++ (surr ++ pending) ∧ s.surrOffset = front.length
  readOffset : s.readOffset = s.surrOffset + surr.length

namespace Reading

variable {surr pending : List Nat} {s : DecodeStatus} {entry : Entry}

theorem surrIds (h : Reading surr pending s) : s.surrIds = surr := by
  obtain ⟨front, hids, hoffset⟩ := h.ids
  unfold DecodeStatus.surrIds
  rw [h.readOffset, hids, hoffset, List.drop_left, Nat.add_sub_cancel_left, List.take_left]

/-- The ids of the entry without the stop token. -/
def trimmed (entry : Entry) (ids : List Nat) : List Nat :=
  if entry.stopsAtToken then ids.dropLast else ids

theorem ids_eq (h : Reading surr pending s) (hstop : entry.stopsAtToken → pending ≠ []) :
    s.ids entry = some (surr ++ trimmed entry pending, surr) := by
  obtain ⟨front, hids, hoffset⟩ := h.ids
  have hread : s.readIds entry = some (surr ++ trimmed entry pending) := by
    unfold DecodeStatus.readIds Entry.trimIds trimmed
    rw [hids, hoffset, List.drop_left]
    split
    · rename_i hstops
      have hne := hstop hstops
      rw [if_neg (by simp [hne]), List.dropLast_append_of_ne_nil hne]
    · rfl
  unfold DecodeStatus.ids
  rw [hread, h.surrIds, Option.map_some]

theorem emit (h : Reading surr pending s) (text : Text) :
    Reading (if entry.advances text then pending else surr)
      (if entry.advances text then [] else pending) (s.emit entry text).1 := by
  obtain ⟨front, hids, hoffset⟩ := h.ids
  unfold DecodeStatus.emit
  dsimp only
  split
  · refine ⟨⟨front ++ surr, ?_, ?_⟩, ?_⟩
    · exact hids.trans (by simp)
    · have hread := h.readOffset
      unfold DecodeStatus.advance
      dsimp only
      rw [hread, hoffset, List.length_append]
    · have hread := h.readOffset
      unfold DecodeStatus.advance
      dsimp only
      rw [hids, hread, hoffset]
      simp only [List.length_append]
      omega
  · exact ⟨⟨front, hids, hoffset⟩, h.readOffset⟩

end Reading

/-- A status that the next message completes. -/
def Awaits (req : Req) (pre surr pending : List Nat) (status : Option DecodeStatus) : Prop :=
  ∀ reason chunk,
    Reading surr (pending ++ chunk) (DecodeStatus.receive (req.entry reason (pre ++ chunk)) status)

theorem awaits_none (req : Req) :
    Awaits req req.surrIds req.surrIds [] none := by
  intro reason chunk
  exact ⟨⟨[], rfl, rfl⟩, (Nat.zero_add _).symm⟩

theorem Reading.awaits {surr pending : List Nat} {s : DecodeStatus} (h : Reading surr pending s)
    (req : Req) : Awaits req [] surr pending (some s) := by
  intro reason chunk
  obtain ⟨front, hids, hoffset⟩ := h.ids
  refine ⟨⟨front, ?_, hoffset⟩, h.readOffset⟩
  unfold DecodeStatus.receive
  dsimp only
  rw [hids]
  simp only [Req.entry, List.nil_append, List.append_assoc]

section Sent

variable (tokenizer : Tokenizer) (req : Req)

/-- `process_special_tokens_spaces` with the settings of the request. -/
def visible (ids : List Nat) : List Nat :=
  processSpecialTokensSpaces ids req.flags.skipSpecialTokens tokenizer.allSpecialIds

/-- The ids `pending` have a complete text behind those of `surr`. -/
def reads (flags : Flags) (surr pending : List Nat) : Bool :=
  isComplete (newText tokenizer flags (surr ++ pending) surr)

/-- All ids that are sent for chunks with the settings they are decoded with. -/
def sentIds : List Nat → List Nat → List (Flags × List Nat) → List Nat → List Nat
  | _, pending, [], last => visible tokenizer req (pending ++ last)
  | surr, pending, (flags, chunk) :: rest, last =>
    visible tokenizer req (pending ++ chunk) ++
      if reads tokenizer flags surr (pending ++ chunk) then sentIds (pending ++ chunk) [] rest last
      else sentIds surr (pending ++ chunk) rest last

/-- No message but the last leaves ids unread that it sends: its text is complete, or all
of them are special and skipped. -/
def CleanCuts : List Nat → List Nat → List (Flags × List Nat) → Prop
  | _, _, [] => True
  | surr, pending, (flags, chunk) :: rest =>
    if reads tokenizer flags surr (pending ++ chunk) then CleanCuts (pending ++ chunk) [] rest
    else visible tokenizer req (pending ++ chunk) = [] ∧ CleanCuts surr (pending ++ chunk) rest

instance decidableCleanCuts (surr pending : List Nat) :
    (cuts : List (Flags × List Nat)) → Decidable (CleanCuts tokenizer req surr pending cuts)
  | [] => isTrue trivial
  | (flags, chunk) :: rest =>
    letI := decidableCleanCuts (pending ++ chunk) [] rest
    letI := decidableCleanCuts surr (pending ++ chunk) rest
    inferInstanceAs (Decidable (if reads tokenizer flags surr (pending ++ chunk) then
      CleanCuts tokenizer req (pending ++ chunk) [] rest
      else visible tokenizer req (pending ++ chunk) = [] ∧
        CleanCuts tokenizer req surr (pending ++ chunk) rest))

variable {tokenizer req}

theorem visible_append (ids ids' : List Nat) :
    visible tokenizer req (ids ++ ids') = visible tokenizer req ids ++ visible tokenizer req ids' := by
  unfold visible processSpecialTokensSpaces
  split
  · exact List.filter_append _ _
  · rfl

/-- The ids of the chunks. -/
def chunkIds (cuts : List (Flags × List Nat)) : List Nat := cuts.flatMap Prod.snd

theorem append_chunkIds_cons (pending last : List Nat) (flags : Flags) (chunk : List Nat)
    (rest : List (Flags × List Nat)) :
    pending ++ (chunkIds ((flags, chunk) :: rest) ++ last) =
      (pending ++ chunk) ++ (chunkIds rest ++ last) := by
  simp only [chunkIds, List.flatMap_cons, List.append_assoc]

/-- What is sent holds every visible id. -/
theorem length_visible_le (tokenizer : Tokenizer) (req : Req) (surr pending : List Nat)
    (cuts : List (Flags × List Nat)) (last : List Nat) :
    (visible tokenizer req (pending ++ (chunkIds cuts ++ last))).length ≤
      (sentIds tokenizer req surr pending cuts last).length := by
  induction cuts generalizing surr pending with
  | nil => rfl
  | cons cut rest ih =>
    obtain ⟨flags, chunk⟩ := cut
    rw [append_chunkIds_cons, visible_append (pending ++ chunk), List.length_append]
    unfold sentIds
    rw [List.length_append]
    split
    · have := ih (pending ++ chunk) []
      rw [List.nil_append] at this
      omega
    · have := ih surr (pending ++ chunk)
      rw [visible_append (pending ++ chunk), List.length_append] at this
      omega

theorem length_sentIds_iff (surr pending : List Nat) (cuts : List (Flags × List Nat))
    (last : List Nat) :
    (sentIds tokenizer req surr pending cuts last).length =
        (visible tokenizer req (pending ++ (chunkIds cuts ++ last))).length ↔
      CleanCuts tokenizer req surr pending cuts := by
  induction cuts generalizing surr pending with
  | nil => exact iff_of_true rfl trivial
  | cons cut rest ih =>
    obtain ⟨flags, chunk⟩ := cut
    rw [append_chunkIds_cons, visible_append (pending ++ chunk), List.length_append]
    unfold sentIds CleanCuts
    rw [List.length_append]
    split
    · rw [← ih (pending ++ chunk) [], List.nil_append]
      omega
    · have hle := length_visible_le tokenizer req surr (pending ++ chunk) rest last
      rw [← ih surr (pending ++ chunk), ← List.length_eq_zero_iff]
      rw [visible_append (pending ++ chunk), List.length_append] at hle ⊢
      omega

theorem sentIds_of_cleanCuts {surr pending : List Nat} {cuts : List (Flags × List Nat)}
    (last : List Nat) (h : CleanCuts tokenizer req surr pending cuts) :
    sentIds tokenizer req surr pending cuts last =
      visible tokenizer req (pending ++ (chunkIds cuts ++ last)) := by
  induction cuts generalizing surr pending with
  | nil => rfl
  | cons cut rest ih =>
    obtain ⟨flags, chunk⟩ := cut
    rw [append_chunkIds_cons, visible_append (pending ++ chunk)]
    unfold CleanCuts at h
    unfold sentIds
    split at h
    · rename_i hreads
      rw [if_pos hreads, ih h, List.nil_append]
    · rename_i hreads
      rw [if_neg hreads, ih h.2, visible_append (pending ++ chunk), h.1, List.nil_append,
        List.nil_append]

/-- Exactly the visible ids are sent when the cuts are clean. -/
theorem sentIds_eq_iff (surr pending : List Nat) (cuts : List (Flags × List Nat))
    (last : List Nat) :
    sentIds tokenizer req surr pending cuts last =
        visible tokenizer req (pending ++ (chunkIds cuts ++ last)) ↔
      CleanCuts tokenizer req surr pending cuts := by
  constructor
  · intro h
    rw [← length_sentIds_iff surr pending cuts last, h]
  · exact sentIds_of_cleanCuts last

/-- With one id too many at the end it must be one that is not visible. -/
theorem sentIds_concat_eq_iff (surr pending : List Nat) (cuts : List (Flags × List Nat))
    (last : List Nat) (id : Nat) :
    sentIds tokenizer req surr pending cuts (last ++ [id]) =
        visible tokenizer req (pending ++ (chunkIds cuts ++ last)) ↔
      CleanCuts tokenizer req surr pending cuts ∧ visible tokenizer req [id] = [] := by
  have hall : pending ++ (chunkIds cuts ++ (last ++ [id])) =
      (pending ++ (chunkIds cuts ++ last)) ++ [id] := by simp only [List.append_assoc]
  have hle := length_visible_le tokenizer req surr pending cuts (last ++ [id])
  rw [hall, visible_append _ [id], List.length_append] at hle
  constructor
  · intro h
    rw [h] at hle
    have hid : visible tokenizer req [id] = [] := by
      rw [← List.length_eq_zero_iff]
      omega
    refine ⟨?_, hid⟩
    rw [← length_sentIds_iff surr pending cuts (last ++ [id]), h, hall, visible_append _ [id], hid,
      List.append_nil]
  · rintro ⟨hcuts, hid⟩
    rw [sentIds_of_cleanCuts _ hcuts, hall, visible_append _ [id], hid, List.append_nil]

theorem stopsAtToken_entry (req : Req) (reason : Option FinishReason) (ids ids' : List Nat) :
    (req.entry reason ids).stopsAtToken = (req.entry reason ids').stopsAtToken := rfl

theorem not_stopsAtToken_none (req : Req) (ids : List Nat) :
    (req.entry none ids).stopsAtToken = false := by
  unfold Entry.stopsAtToken Entry.stop Req.entry
  cases req.noStopTrim <;> rfl

/-- The ids without the stop token of the last message. -/
def Req.trimLast (req : Req) (reason : FinishReason) (ids : List Nat) : List Nat :=
  Reading.trimmed (req.entry (some reason) []) ids

/-- What is sent for one message, and the status after it. -/
theorem step_sent (tokenizer : Tokenizer) {status : Option DecodeStatus} {pre surr pending : List Nat}
    (hawaits : Awaits req pre surr pending status) (flags : Flags) (reason : Option FinishReason)
    (chunk : List Nat) (hstop : (req.entry reason []).stopsAtToken → pending ++ chunk ≠ []) :
    ∃ s' output text,
      step tokenizer flags status (req.entry reason (pre ++ chunk)) = some (s', output) ∧
        output.outputIds =
          visible tokenizer req (Reading.trimmed (req.entry reason []) (pending ++ chunk)) ∧
        (reason = none → text = newText tokenizer flags (surr ++ (pending ++ chunk)) surr) ∧
        Reading (if (req.entry reason []).advances text then pending ++ chunk else surr)
          (if (req.entry reason []).advances text then [] else pending ++ chunk) s' := by
  have hreading := hawaits reason chunk
  have hids : (DecodeStatus.receive (req.entry reason (pre ++ chunk)) status).ids
      (req.entry reason (pre ++ chunk)) =
        some (surr ++ Reading.trimmed (req.entry reason []) (pending ++ chunk), surr) :=
    hreading.ids_eq hstop
  have hstep : step tokenizer flags status (req.entry reason (pre ++ chunk)) =
      some ((DecodeStatus.receive (req.entry reason (pre ++ chunk)) status).send tokenizer flags
        (req.entry reason (pre ++ chunk))
        (surr ++ Reading.trimmed (req.entry reason []) (pending ++ chunk), surr)) := by
    unfold step
    dsimp only
    rw [hids, Option.map_some]
  refine ⟨_, _, _, hstep, ?_, ?_, hreading.emit _⟩
  · unfold newIds
    dsimp only
    rw [List.drop_left]
    rfl
  · rintro rfl
    unfold Reading.trimmed
    rw [not_stopsAtToken_none]
    rfl

/-- What a request is sent over all its messages. -/
theorem steps_sent {status : Option DecodeStatus} {pre surr pending last : List Nat}
    {own : List (Flags × Entry)} {chunks : List (List Nat)} {reason : FinishReason}
    {outputs : List Output} (hawaits : Awaits req pre surr pending status)
    (hown : own.map Prod.snd = req.entries reason pre chunks last)
    (hstop : (req.entry (some reason) []).stopsAtToken → last ≠ [])
    (h : steps tokenizer status own = some outputs) :
    outputs.flatMap Output.outputIds =
      sentIds tokenizer req surr pending ((own.map Prod.fst).zip chunks)
        (req.trimLast reason last) := by
  induction chunks generalizing status pre surr pending own outputs with
  | nil =>
    obtain ⟨⟨flags, entry⟩, rest, rfl, hentry, hrest⟩ := List.map_eq_cons_iff.mp hown
    have hnil : rest = [] := List.map_eq_nil_iff.mp hrest
    subst hnil
    dsimp only at hentry
    subst hentry
    obtain ⟨s', output, text, hstep, hids, -, -⟩ :=
      step_sent tokenizer hawaits flags (some reason) last
        (fun hstops => by simp [hstop hstops])
    rw [steps_cons hstep] at h
    cases h
    rw [List.flatMap_singleton, hids, List.zip_nil_right]
    unfold sentIds Req.trimLast Reading.trimmed
    congr 1
    split
    · rename_i hstops
      exact List.dropLast_append_of_ne_nil (hstop hstops)
    · rfl
  | cons chunk chunks ih =>
    obtain ⟨⟨flags, entry⟩, rest, rfl, hentry, hrest⟩ := List.map_eq_cons_iff.mp hown
    dsimp only at hentry
    subst hentry
    obtain ⟨s', output, text, hstep, hids, htext, hreading⟩ :=
      step_sent tokenizer hawaits flags none chunk
        (fun hstops => by rw [not_stopsAtToken_none] at hstops; cases hstops)
    rw [steps_cons hstep] at h
    obtain ⟨later, hlater, rfl⟩ := Option.map_eq_some_iff.mp h
    have hadvances : (req.entry none []).advances text =
        reads tokenizer flags surr (pending ++ chunk) := by
      rw [htext rfl]
      rfl
    rw [hadvances] at hreading
    have hrun := ih (hreading.awaits req) hrest hlater
    rw [List.flatMap_cons, hids, hrun, List.map_cons, List.zip_cons_cons]
    unfold Reading.trimmed
    rw [not_stopsAtToken_none]
    cases hreads : reads tokenizer flags surr (pending ++ chunk) with
    | true => simp [sentIds, hreads]
    | false => simp [sentIds, hreads]

end Sent

/-! ### What is delivered -/

/-- The last message ends where `check_finished` says: not before the tokens that were
there earlier, and with the stop token if there is one. -/
structure Finishes (chunks : List (List Nat)) (last : List Nat) (reason : FinishReason)
    (finishedLen : Option Nat) (stopped : List Nat) : Prop where
  through : match finishedLen with
    | some n => chunks.flatten.length ≤ n ∧ stopped = last.take (n - chunks.flatten.length)
    | none => stopped = last
  stop : ∀ id, reason.matched = some (.token id) → stopped.getLast? = some id

namespace Req

/-- The output up to the stop, without the stop token unless `no_stop_trim` is set. -/
def stopTrimmed (req : Req) : List Nat :=
  match req.finishedReason.bind FinishReason.matched with
  | some (.token _) =>
    if req.noStopTrim then req.outputIdsThroughStop else req.outputIdsThroughStop.dropLast
  | _ => req.outputIdsThroughStop

/-- The ids that a finished request should be sent. -/
def delivered (req : Req) (tokenizer : Tokenizer) : List Nat :=
  visible tokenizer req req.stopTrimmed

/-- The stop token that `trim_matched_stop` takes for no stop. -/
def StopsAtZero (req : Req) (reason : FinishReason) : Prop :=
  reason.matched = some (.token 0) ∧ req.noStopTrim = false

variable {req : Req} {chunks : List (List Nat)} {last stopped : List Nat} {reason : FinishReason}
  {finishedLen : Option Nat}

theorem streamChunks_outputIds (req : Req) (chunks : List (List Nat)) :
    (req.streamChunks chunks).1.outputIds = req.outputIds ++ chunks.flatten := by
  induction chunks generalizing req with
  | nil => simp [streamChunks]
  | cons chunk rest ih =>
    have hkeeps := (streamOutput_keeps (req.generate chunk)).2
    unfold streamChunks
    dsimp only
    rw [ih, hkeeps, List.flatten_cons, ← List.append_assoc]
    rfl

theorem streamChunks_entry (req : Req) (chunks : List (List Nat)) :
    (req.streamChunks chunks).1.entry = req.entry := by
  induction chunks generalizing req with
  | nil => rfl
  | cons chunk rest ih =>
    unfold streamChunks
    exact (ih _).trans (streamOutput_keeps (req.generate chunk)).1

theorem matched_of_stopsAtToken {ids : List Nat}
    (h : (req.entry (some reason) ids).stopsAtToken = true) :
    ∃ id, reason.matched = some (.token id) := by
  obtain ⟨matched⟩ := reason
  cases matched with
  | none =>
    unfold Entry.stopsAtToken Entry.stop Req.entry at h
    cases hno : req.noStopTrim <;> simp [hno] at h
  | some matched =>
    cases matched with
    | token id => exact ⟨id, rfl⟩
    | str text =>
      unfold Entry.stopsAtToken Entry.stop Req.entry at h
      by_cases hnil : text = [] <;> cases hno : req.noStopTrim <;>
        simp [hno, hnil, Option.filter] at h

theorem finished_outputIdsThroughStop (hnew : req.outputIds = [])
    (h : Finishes chunks last reason finishedLen stopped) :
    (req.finished chunks last reason finishedLen).outputIdsThroughStop =
      chunks.flatten ++ stopped := by
  have hids : (req.finished chunks last reason finishedLen).outputIds =
      chunks.flatten ++ last := by
    unfold finished finish Req.generate
    dsimp only
    rw [streamChunks_outputIds, hnew, List.nil_append]
  have hlen : (req.finished chunks last reason finishedLen).finishedLen = finishedLen := rfl
  have hstopped := h.through
  unfold outputIdsThroughStop
  rw [hids, hlen]
  cases finishedLen with
  | none => rw [hstopped]
  | some n =>
    obtain ⟨hle, hstopped⟩ := hstopped
    dsimp only
    rw [hstopped, List.take_append, List.take_of_length_le hle]

theorem trimLast_eq (req : Req) (reason : FinishReason) (ids : List Nat) :
    req.trimLast reason ids =
      match reason.matched with
      | some (.token id) => if req.noStopTrim = true ∨ id = 0 then ids else ids.dropLast
      | _ => ids := by
  obtain ⟨matched⟩ := reason
  unfold trimLast Reading.trimmed Entry.stopsAtToken Entry.stop Req.entry
  dsimp only
  cases req.noStopTrim with
  | true => cases matched with
    | none => rfl
    | some matched => cases matched <;> simp
  | false => cases matched with
    | none => rfl
    | some matched => cases matched with
      | str text => by_cases hnil : text = [] <;> simp [Option.filter, hnil]
      | token id => by_cases hid : id = 0 <;> simp [Option.filter, hid]

/-- What the messages of a request send against what it should be sent. -/
theorem sent_eq_delivered_iff {tokenizer : Tokenizer} {final : Req}
    {cuts : List (Flags × List Nat)} (surr : List Nat)
    (hflags : final.flags = req.flags) (htrim : final.noStopTrim = req.noStopTrim)
    (hreason : final.finishedReason = some reason)
    (hthrough : final.outputIdsThroughStop = chunkIds cuts ++ stopped)
    (hstop : ∀ id, reason.matched = some (.token id) → stopped.getLast? = some id) :
    sentIds tokenizer req surr [] cuts (req.trimLast reason stopped) = final.delivered tokenizer ↔
      CleanCuts tokenizer req surr [] cuts ∧
        (StopsAtZero req reason → visible tokenizer req [0] = []) := by
  have hvisible : visible tokenizer final = visible tokenizer req := by
    funext ids
    unfold visible
    rw [hflags]
  unfold delivered stopTrimmed
  rw [hvisible, hreason, hthrough, htrim, Option.bind_some]
  have hclean : ∀ ids, sentIds tokenizer req surr [] cuts ids =
      visible tokenizer req (chunkIds cuts ++ ids) ↔ CleanCuts tokenizer req surr [] cuts := by
    intro ids
    rw [← sentIds_eq_iff surr [] cuts ids, List.nil_append]
  have hzero : ¬ StopsAtZero req reason → (CleanCuts tokenizer req surr [] cuts ↔
      CleanCuts tokenizer req surr [] cuts ∧
        (StopsAtZero req reason → visible tokenizer req [0] = [])) :=
    fun hno => ⟨fun h => ⟨h, fun hyes => absurd hyes hno⟩, And.left⟩
  rw [trimLast_eq]
  obtain ⟨matched⟩ := reason
  cases matched with
  | none =>
    rw [← hzero (by rintro ⟨h, -⟩; cases h)]
    exact hclean stopped
  | some matched =>
    cases matched with
    | str text =>
      rw [← hzero (by rintro ⟨h, -⟩; cases h)]
      exact hclean stopped
    | token id =>
      obtain ⟨init, rfl⟩ := List.getLast?_eq_some_iff.mp (hstop id rfl)
      dsimp only
      by_cases hno : req.noStopTrim = true
      · have hnot : ¬ StopsAtZero req ⟨some (.token id)⟩ := by
          rintro ⟨-, h⟩
          rw [hno] at h
          cases h
        rw [if_pos (.inl hno), if_pos hno, ← hzero hnot]
        exact hclean _
      · rw [if_neg hno, ← List.append_assoc, List.dropLast_concat, List.dropLast_concat]
        by_cases hid : id = 0
        · have hconcat : sentIds tokenizer req surr [] cuts (init ++ [id]) =
              visible tokenizer req ([] ++ (chunkIds cuts ++ init)) ↔ _ :=
            sentIds_concat_eq_iff surr [] cuts init id
          rw [if_pos (.inr hid), ← List.nil_append (chunkIds cuts ++ init), hconcat, hid]
          exact and_congr_right fun _ =>
            ⟨fun h _ => h, fun h => h ⟨rfl, Bool.not_eq_true _ ▸ hno⟩⟩
        · have hnot : ¬ StopsAtZero req ⟨some (.token id)⟩ := by
            rintro ⟨h, -⟩
            cases h
            exact hid rfl
          rw [if_neg (by simp [hno, hid]), ← hzero hnot]
          exact hclean init

theorem length_entries (req : Req) (reason : FinishReason) (pre : List Nat)
    (chunks : List (List Nat)) (last : List Nat) :
    (req.entries reason pre chunks last).length = chunks.length + 1 := by
  induction chunks generalizing pre with
  | nil => rfl
  | cons chunk rest ih =>
    unfold entries
    rw [List.length_cons, ih, List.length_cons]

end Req

theorem chunkIds_zip {settings : List Flags} {chunks : List (List Nat)}
    (h : chunks.length ≤ settings.length) : chunkIds (settings.zip chunks) = chunks.flatten := by
  unfold chunkIds
  rw [List.flatMap_def, List.map_snd_zip h]

/-- The tokenizer manager ends with exactly the ids that a request should be sent when no
message but the last cuts its text and the stop token is not 0. -/
theorem collected_eq_iff {capacity : Nat} {batches : List (List Entry)}
    {outputs : List (List Output)} {tokenizer : Tokenizer} {req : Req} {rid : String}
    {originInputIdsUnpadded : List Nat} {flags : Flags} {noStopTrim : Bool}
    {chunks : List (List Nat)} {last stopped : List Nat} {reason : FinishReason}
    {finishedLen : Option Nat} (hnew : req = .new rid originInputIdsUnpadded flags noStopTrim)
    (hfinish : Finishes chunks last reason finishedLen stopped)
    (hserved : Served (.empty capacity) batches)
    (hown : entriesOf rid batches = req.messages chunks last reason finishedLen)
    (hrun : handleAll tokenizer (.empty capacity) batches = some outputs) :
    (ReqState.collect (ownOutputs rid outputs)).outputIds =
        (req.finished chunks last reason finishedLen).delivered tokenizer ↔
      CleanCuts tokenizer req req.surrIds [] (((own rid batches).map Prod.fst).zip chunks) ∧
        (req.StopsAtZero reason → visible tokenizer req [0] = []) := by
  have hempty : req.outputIds = [] := by rw [hnew]; rfl
  have hready : Req.Ready req.surrIds req := by
    rw [hnew]
    exact Req.ready_new _ _ _ _
  have hthrough := Req.finished_outputIdsThroughStop hempty hfinish
  have hmessages : (own rid batches).map Prod.snd =
      req.entries reason req.surrIds chunks stopped := by
    rw [← hready.messages (by rw [hempty]; exact hthrough)]
    exact hown
  have hcount : chunks.length ≤ ((own rid batches).map Prod.fst).length := by
    have hlength := congrArg List.length hmessages
    rw [Req.length_entries, List.length_map] at hlength
    rw [List.length_map]
    omega
  have hne : (req.entry (some reason) []).stopsAtToken → stopped ≠ [] := by
    intro hstops hnil
    obtain ⟨id, hid⟩ := Req.matched_of_stopsAtToken hstops
    have hlast := hfinish.stop id hid
    rw [hnil] at hlast
    cases hlast
  have hsteps : steps tokenizer none (own rid batches) = some (ownOutputs rid outputs) :=
    handleAll_some hserved hrun rid
  rw [ReqState.collect_outputIds, steps_sent (awaits_none req) hmessages hne hsteps]
  have hentry := Req.streamChunks_entry req chunks
  refine Req.sent_eq_delivered_iff req.surrIds ?_ ?_ rfl ?_ hfinish.stop
  · exact congrArg (fun entry => (entry none []).flags) hentry
  · exact congrArg (fun entry => (entry none []).noStopTrim) hentry
  · rw [hthrough, chunkIds_zip hcount]

section Runs

/-- A tokenizer whose tokens are strings of bytes. -/
def byteLevel (bytes : Nat → List UInt8) (allSpecialIds : List Nat) : Tokenizer where
  decode := fun flags ids =>
    Utf8.decode ((processSpecialTokensSpaces ids flags.skipSpecialTokens allSpecialIds).flatMap
      bytes)
  allSpecialIds := allSpecialIds

/-- One token for each byte. -/
def bytewise : Tokenizer := byteLevel (fun id => [UInt8.ofNat id]) []

def request : Req := .new "r" [] ⟨true, true⟩ false

/-- The messages of a request that is alone in its batches. -/
def alone (chunks : List (List Nat)) (last : List Nat) : List (List Entry) :=
  (request.messages chunks last ⟨none⟩ none).map fun entry => [entry]

/-- A character of two bytes, cut in the middle: its first token is delivered twice. -/
theorem cut_repeats : ∃ outputs,
    Served (.empty 1) (alone [[0xc3]] [0xa9]) ∧
      Finishes [[0xc3]] [0xa9] ⟨none⟩ none [0xa9] ∧
      entriesOf "r" (alone [[0xc3]] [0xa9]) = request.messages [[0xc3]] [0xa9] ⟨none⟩ none ∧
      handleAll bytewise (.empty 1) (alone [[0xc3]] [0xa9]) = some outputs ∧
      (ReqState.collect (ownOutputs "r" outputs)).outputIds = [0xc3, 0xc3, 0xa9] ∧
      (request.finished [[0xc3]] [0xa9] ⟨none⟩ none).delivered bytewise = [0xc3, 0xa9] :=
  ⟨_, ⟨by decide, by decide, by unfold Fits; decide⟩, ⟨rfl, fun id h => by cases h⟩, by decide,
    rfl, by decide, by decide⟩

/-- The same tokens with the cut behind the character. -/
theorem whole_delivered : ∃ outputs,
    handleAll bytewise (.empty 1) (alone [[0xc3, 0xa9]] [0x61]) = some outputs ∧
      (ReqState.collect (ownOutputs "r" outputs)).outputIds =
        (request.finished [[0xc3, 0xa9]] [0x61] ⟨none⟩ none).delivered bytewise := by
  refine ⟨_, rfl, ?_⟩
  have hserved : Served (.empty 1) (alone [[0xc3, 0xa9]] [0x61]) :=
    ⟨by decide, by decide, by unfold Fits; decide⟩
  exact (collected_eq_iff rfl ⟨rfl, fun id h => by cases h⟩ hserved (by decide) rfl).mpr
    ⟨by decide, fun h => absurd h.1 (by decide)⟩

end Runs

end SglJax.Managers.StreamOutput
