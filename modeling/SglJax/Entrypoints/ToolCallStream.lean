import SglJax.FunctionCall.Qwen3CoderDetector
import SglJax.FunctionCall.ToolCallCuts
import Mathlib.Logic.Function.Basic

/-! Tool calls in a streamed chat completion. Each choice has a detector of its own, and the
chunk that ends a choice completes the arguments that were sent. -/
namespace SglJax.Entrypoints

open FunctionCall

/-- `finish_reason_type` -/
inductive FinishType where
  | stop
  | length
  | abort
  | toolCalls
deriving DecidableEq, Repr

inductive StreamError where
  | python (e : PyError)
  | indexError
deriving DecidableEq, Repr

/-- A chunk of a choice. -/
structure ChoiceChunk where
  index : Nat
  delta : Text
  finishReason : Option FinishType
deriving DecidableEq, Repr

/-- A tool call in a chunk of the response; a random id comes with the name. -/
structure ToolCallDelta where
  index : Nat
  toolIndex : Int
  hasId : Bool
  name : Option Text
  arguments : Text
  finishReason : Option FinishType
deriving DecidableEq, Repr

inductive SentChunk where
  | content (index : Nat) (text : Text) (finishReason : Option FinishType)
  | toolCall (delta : ToolCallDelta)
deriving DecidableEq, Repr

/-- `text.replace(sub, "", 1)` -/
def removeFirst (sub text : Text) : Text :=
  match Text.find sub text with
  | some i => text.take i ++ text.drop (i + sub.length)
  | none => text

section Stream

variable (d : ServedDetector) (tools : List Tool) (includeUsage : Bool)

/-- `parser_dict` -/
abbrev ParserDict := Nat → Option d.State

/-- The detector of a choice; it is made with the first chunk. -/
def detectorOf (parserDict : ParserDict d) (index : Nat) : d.State :=
  (parserDict index).getD d.init

/-- `json.dumps(prev_tool_call_arr[index].get("arguments", {}), ensure_ascii=False)` -/
def expectedCall (s : d.State) (index : Nat) : Except StreamError Text :=
  match (d.prevToolCallArr s)[index]? with
  | none => .error .indexError
  | some none => .ok ['{', '}']
  | some (some arguments) => (d.dumps arguments).mapError .python

/-- The arguments that are still to be sent, those of the latest item included. -/
def remainingCall (s : d.State) (index : Nat) (parameters : Text) : Except StreamError Text :=
  match expectedCall d s index with
  | .error e => .error e
  | .ok expected =>
    match (d.streamedArgsForTool s)[index]? with
    | none => .error .indexError
    | some actual => .ok (removeFirst (actual.take (actual.length - parameters.length)) expected)

/-- The chunk for an item. -/
def toolCallDelta (index : Nat) (item : ToolCallItem) (arguments : Text)
    (finishReason : Option FinishType) : ToolCallDelta :=
  let functionName := item.name.filter fun name => name ≠ []
  ⟨index, item.toolIndex, functionName.isSome, functionName, arguments,
    if includeUsage then none else finishReason⟩

/-- The loop over the items. The first one of a chunk that stops is corrected by the entries
at the index of the choice. -/
def sendCalls (s : d.State) (index : Nat) :
    Option FinishType → List ToolCallItem → List ToolCallDelta × Except StreamError Unit
  | _, [] => ([], .ok ())
  | finishReason, item :: rest =>
    if finishReason = some .stop then
      match remainingCall d s index item.parameters with
      | .error e => ([], .error e)
      | .ok remaining =>
        let later := sendCalls s index (some .toolCalls) rest
        (toolCallDelta includeUsage index item remaining (some .toolCalls) :: later.1, later.2)
    else
      let later := sendCalls s index finishReason rest
      (toolCallDelta includeUsage index item item.parameters finishReason :: later.1, later.2)

/-- `_process_tool_call_stream`: what is sent, and the detectors after it. -/
def processToolCallStream (parserDict : ParserDict d) (chunk : ChoiceChunk) :
    List SentChunk × Except StreamError (ParserDict d) :=
  match d.parseStreamChunk tools (detectorOf d parserDict chunk.index) chunk.delta with
  | .error e => ([], .error (.python e))
  | .ok (s, result) =>
    let content := if result.normalText.isEmpty then []
      else [.content chunk.index result.normalText chunk.finishReason]
    let sent := sendCalls d includeUsage s chunk.index chunk.finishReason result.calls
    (content ++ sent.1.map .toolCall,
      sent.2.map fun _ => Function.update parserDict chunk.index (some s))

/-! ### What is due -/

/-- The arguments of a chunk for one call of one choice. -/
def SentChunk.argumentsFor (index : Nat) (toolIndex : Int) : SentChunk → Text
  | .content _ _ _ => []
  | .toolCall delta =>
    if delta.index = index ∧ delta.toolIndex = toolIndex then delta.arguments else []

def sentArguments (index : Nat) (toolIndex : Int) (sent : List SentChunk) : Text :=
  sent.flatMap (SentChunk.argumentsFor index toolIndex)

/-- What the text of a call lacks of its JSON. -/
def missing (s : d.State) (i : Nat) : Text :=
  match expectedCall d s i with
  | .ok expected =>
    let actual := textAt (d.streamedArgsForTool s) i
    if actual <+: expected then expected.drop actual.length else []
  | .error _ => []

/-- The chunk that stops the choice has come. -/
def stopped (history : List ChoiceChunk) (index : Nat) : Bool :=
  history.any fun chunk => chunk.index = index && chunk.finishReason = some .stop

/-- What should be sent for a call of a choice: what its detector streamed, and at the end
what is missing. -/
def due (parserDict : ParserDict d) (history : List ChoiceChunk) (index i : Nat) : Text :=
  let s := detectorOf d parserDict index
  textAt (d.streamedArgsForTool s) i ++ if stopped history index then missing d s i else []

/-! ### Chunks that are completed -/

/-- The call has both entries, and its text begins its JSON. -/
def Begun (s : d.State) (i : Nat) : Prop :=
  ∃ expected actual, expectedCall d s i = .ok expected ∧
    (d.streamedArgsForTool s)[i]? = some actual ∧ actual <+: expected

/-- The items of the last chunk. The first one is for the call at the index of the choice and
brings all its arguments of the chunk, or it brings none and none are missing; no other
call lacks anything. -/
def Completes (s : d.State) (index : Nat) : List ToolCallItem → Prop
  | [] => ∀ i, missing d s i = []
  | first :: rest =>
    first.toolIndex = index ∧ Begun d s index ∧ (∀ i, i ≠ index → missing d s i = []) ∧
      (itemsText index rest = [] ∨ first.parameters = [] ∧ missing d s index = [])

/-- The detector adds the items to its texts, and they complete the calls of a choice that
stops. -/
def Meets (parserDict : ParserDict d) (chunk : ChoiceChunk) : Prop :=
  ∀ s result,
    d.parseStreamChunk tools (detectorOf d parserDict chunk.index) chunk.delta = .ok (s, result) →
      Accounts (d.streamedArgsForTool (detectorOf d parserDict chunk.index))
          (d.streamedArgsForTool s) result.calls ∧
        (chunk.finishReason = some .stop → Completes d s chunk.index result.calls)

/-- The choice goes on after its earlier chunks. -/
def Runs (history : List ChoiceChunk) (chunk : ChoiceChunk) : Prop :=
  ∀ earlier ∈ history, earlier.index = chunk.index → earlier.finishReason = none

/-- The detectors, the chunks so far and what was sent, when each chunk meets the condition. -/
inductive Reached : ParserDict d → List ChoiceChunk → List SentChunk → Prop
  | init : Reached (fun _ => none) [] []
  | step {parserDict parserDict' : ParserDict d} {history : List ChoiceChunk}
      {sent chunks : List SentChunk} {chunk : ChoiceChunk}
      (hreached : Reached parserDict history sent) (hruns : Runs history chunk)
      (hmeets : Meets d tools parserDict chunk)
      (hstep : processToolCallStream d tools includeUsage parserDict chunk =
        (chunks, .ok parserDict')) : Reached parserDict' (history ++ [chunk]) (sent ++ chunks)

/-- A delta has the arguments of its item, or what remains by the entries of its own call. -/
def OwnDelta (parserDict : ParserDict d) (chunk : ChoiceChunk) (delta : ToolCallDelta) : Prop :=
  ∃ s result, d.parseStreamChunk tools (detectorOf d parserDict chunk.index) chunk.delta =
      .ok (s, result) ∧
    ∃ item ∈ result.calls, delta.index = chunk.index ∧ delta.toolIndex = item.toolIndex ∧
      (delta.arguments = item.parameters ∨ ∃ i : Nat, item.toolIndex = i ∧
        remainingCall d s i item.parameters = .ok delta.arguments)

end Stream

/-! ### One chunk -/

section Step

variable {d : ServedDetector} {tools : List Tool} {includeUsage : Bool} {s : d.State}
  {index i : Nat} {finishReason : Option FinishType} {items : List ToolCallItem}

theorem removeFirst_of_start {sub text : Text} (h : sub <+: text) :
    removeFirst sub text = text.drop sub.length := by
  unfold removeFirst
  rw [Text.find_of_prefix h]
  dsimp only
  rw [List.take_zero, List.nil_append, Nat.zero_add]

theorem sendCalls_of_running (h : finishReason ≠ some .stop) :
    sendCalls d includeUsage s index finishReason items =
      (items.map fun item => toolCallDelta includeUsage index item item.parameters finishReason,
        .ok ()) := by
  induction items with
  | nil => rfl
  | cons item rest ih =>
    unfold sendCalls
    rw [if_neg h, ih]
    rfl

theorem sendCalls_of_stop {item : ToolCallItem} {rest : List ToolCallItem} {remaining : Text}
    (h : remainingCall d s index item.parameters = .ok remaining) :
    sendCalls d includeUsage s index (some .stop) (item :: rest) =
      (toolCallDelta includeUsage index item remaining (some .toolCalls) ::
        rest.map fun item => toolCallDelta includeUsage index item item.parameters
          (some .toolCalls), .ok ()) := by
  unfold sendCalls
  rw [if_pos rfl, h]
  dsimp only
  rw [sendCalls_of_running (by decide)]

theorem sentArguments_append (index : Nat) (toolIndex : Int) (sent sent' : List SentChunk) :
    sentArguments index toolIndex (sent ++ sent') =
      sentArguments index toolIndex sent ++ sentArguments index toolIndex sent' :=
  List.flatMap_append

theorem sentArguments_items (index : Nat) (toolIndex : Int) (items : List ToolCallItem)
    (finishReason : Option FinishType) :
    sentArguments index toolIndex
      ((items.map fun item => toolCallDelta includeUsage index item item.parameters
        finishReason).map .toolCall) = itemsText toolIndex items := by
  induction items with
  | nil => rfl
  | cons item rest ih =>
    rw [itemsText_cons, ← ih]
    unfold sentArguments
    rw [List.map_cons, List.map_cons, List.flatMap_cons]
    unfold SentChunk.argumentsFor toolCallDelta
    dsimp only
    simp only [true_and]

theorem sentArguments_of_ne {index' : Nat} {toolIndex : Int} {deltas : List ToolCallDelta}
    (h : ∀ delta ∈ deltas, delta.index ≠ index') :
    sentArguments index' toolIndex (deltas.map .toolCall) = [] := by
  unfold sentArguments
  rw [List.flatMap_eq_nil_iff]
  intro sent hsent
  obtain ⟨delta, hdelta, rfl⟩ := List.mem_map.mp hsent
  exact if_neg fun heq => h delta hdelta heq.1

/-- The text of a call that is begun, up to its JSON. -/
theorem missing_eq {expected actual : Text} (hexpected : expectedCall d s i = .ok expected)
    (hactual : (d.streamedArgsForTool s)[i]? = some actual) (h : actual <+: expected) :
    missing d s i = expected.drop actual.length := by
  have htext : textAt (d.streamedArgsForTool s) i = actual := by
    unfold textAt
    rw [hactual]
    rfl
  unfold missing
  rw [hexpected]
  dsimp only
  rw [htext, if_pos h]

theorem remainingCall_eq {expected actual : Text} (parameters : Text)
    (hexpected : expectedCall d s i = .ok expected)
    (hactual : (d.streamedArgsForTool s)[i]? = some actual) (h : actual <+: expected) :
    remainingCall d s i parameters = .ok (expected.drop (actual.length - parameters.length)) := by
  have hpre : actual.take (actual.length - parameters.length) <+: expected :=
    (List.take_prefix _ _).trans h
  unfold remainingCall
  rw [hexpected, hactual]
  dsimp only
  rw [removeFirst_of_start hpre, List.length_take, Nat.min_eq_left (Nat.sub_le _ _)]

/-- What remains, with the items behind the first one, is what they bring and what is
missing. -/
theorem remaining_completes {before parameters rest : Text} (hbegun : Begun d s i)
    (htext : textAt (d.streamedArgsForTool s) i = before ++ (parameters ++ rest))
    (h : rest = [] ∨ parameters = [] ∧ missing d s i = []) :
    ∃ remaining, remainingCall d s i parameters = .ok remaining ∧
      remaining ++ rest = (parameters ++ rest) ++ missing d s i := by
  obtain ⟨expected, actual, hexpected, hactual, hpre⟩ := hbegun
  have hmissing := missing_eq hexpected hactual hpre
  have hown : actual = before ++ (parameters ++ rest) := by
    rw [← htext]
    unfold textAt
    rw [hactual]
    rfl
  refine ⟨_, remainingCall_eq parameters hexpected hactual hpre, ?_⟩
  rcases h with rfl | ⟨rfl, hnone⟩
  · obtain ⟨more, rfl⟩ := hpre
    rw [List.append_nil] at hown ⊢
    rw [List.append_nil, hmissing, List.drop_left, hown]
    have hlength : (before ++ parameters).length - parameters.length = before.length := by
      rw [List.length_append, Nat.add_sub_cancel]
    rw [hlength, List.append_assoc, List.drop_left]
  · rw [hnone, List.append_nil, List.nil_append, List.length_nil, Nat.sub_zero, ← hmissing, hnone]
    rfl

/-- The chunks for the items of one chunk. -/
theorem sendCalls_completes (includeUsage : Bool) (finishReason : Option FinishType)
    {before : List Text}
    (haccounts : Accounts before (d.streamedArgsForTool s) items)
    (hcompletes : finishReason = some .stop → Completes d s index items) :
    ∃ deltas, sendCalls d includeUsage s index finishReason items = (deltas, .ok ()) ∧
      (∀ delta ∈ deltas, delta.index = index ∧ ∃ item ∈ items,
        delta.toolIndex = item.toolIndex ∧ (delta.arguments = item.parameters ∨
          ∃ i : Nat, item.toolIndex = i ∧
            remainingCall d s i item.parameters = .ok delta.arguments)) ∧
      ∀ i : Nat, sentArguments index i (deltas.map .toolCall) =
        itemsText i items ++ if finishReason = some .stop then missing d s i else [] := by
  have hplain : ∀ (items' : List ToolCallItem) (reason : Option FinishType), items' ⊆ items →
      ∀ delta ∈ items'.map fun item =>
        toolCallDelta includeUsage index item item.parameters reason,
      delta.index = index ∧ ∃ item ∈ items, delta.toolIndex = item.toolIndex ∧
        (delta.arguments = item.parameters ∨ ∃ i : Nat, item.toolIndex = i ∧
          remainingCall d s i item.parameters = .ok delta.arguments) := by
    intro items' reason hsub delta hdelta
    obtain ⟨item, hitem, rfl⟩ := List.mem_map.mp hdelta
    exact ⟨rfl, item, hsub hitem, rfl, .inl rfl⟩
  by_cases hstop : finishReason = some .stop
  · subst hstop
    have hdone := hcompletes rfl
    cases items with
    | nil =>
      refine ⟨[], rfl, fun delta hdelta => absurd hdelta List.not_mem_nil, fun i => ?_⟩
      rw [if_pos rfl, hdone i]
      rfl
    | cons first rest =>
      obtain ⟨hfirst, hbegun, hothers, hwhole⟩ := hdone
      have hparts : ∀ i : Nat, itemsText i (first :: rest) =
          (if i = index then first.parameters else []) ++ itemsText i rest := by
        intro i
        rw [itemsText_cons, hfirst]
        by_cases hi : i = index
        · rw [if_pos hi, if_pos (by rw [hi])]
        · have hne : (index : Int) ≠ (i : Int) := fun heq => hi (Int.ofNat.inj heq).symm
          rw [if_neg hi, if_neg hne]
      have htext := haccounts index
      rw [hparts, if_pos rfl] at htext
      obtain ⟨remaining, hremaining, hsum⟩ := remaining_completes hbegun htext hwhole
      refine ⟨_, sendCalls_of_stop hremaining, ?_, fun i => ?_⟩
      · intro delta hdelta
        rcases List.mem_cons.mp hdelta with rfl | hdelta
        · exact ⟨rfl, first, List.mem_cons_self, rfl, .inr ⟨index, hfirst, hremaining⟩⟩
        · exact hplain rest _ (List.subset_cons_self _ _) delta hdelta
      · have hhead : sentArguments index i ([toolCallDelta includeUsage index first remaining
            (some .toolCalls)].map .toolCall) = if i = index then remaining else [] := by
          unfold sentArguments toolCallDelta
          rw [List.map_singleton, List.flatMap_singleton]
          unfold SentChunk.argumentsFor
          dsimp only
          rw [hfirst]
          by_cases hi : i = index
          · rw [if_pos hi, if_pos ⟨rfl, by rw [hi]⟩]
          · rw [if_neg hi, if_neg fun heq => hi (Int.ofNat.inj heq.2).symm]
        rw [← List.singleton_append, List.map_append, sentArguments_append, hhead,
          sentArguments_items, if_pos rfl, hparts]
        by_cases hi : i = index
        · rw [if_pos hi, if_pos hi, hi]
          exact hsum
        · rw [if_neg hi, if_neg hi, hothers i hi, List.append_nil]
  · refine ⟨_, sendCalls_of_running hstop, hplain items _ (List.Subset.refl _), fun i => ?_⟩
    rw [sentArguments_items, if_neg hstop, List.append_nil]

end Step

/-! ### All chunks -/

section Run

variable {d : ServedDetector} {tools : List Tool} {includeUsage : Bool}
  {parserDict : ParserDict d} {history : List ChoiceChunk} {sent : List SentChunk}
  {chunk : ChoiceChunk}

/-- What a chunk that meets the condition sends. -/
theorem processToolCallStream_meets (includeUsage : Bool)
    (hmeets : Meets d tools parserDict chunk) {s : d.State} {result : StreamingParseResult}
    (hparse : d.parseStreamChunk tools (detectorOf d parserDict chunk.index) chunk.delta =
      .ok (s, result)) :
    ∃ chunks, processToolCallStream d tools includeUsage parserDict chunk =
        (chunks, .ok (Function.update parserDict chunk.index (some s))) ∧
      (∀ delta, .toolCall delta ∈ chunks → OwnDelta d tools parserDict chunk delta) ∧
      ∀ index i : Nat, sentArguments index i chunks =
        if index = chunk.index then
          itemsText i result.calls ++ if chunk.finishReason = some .stop then missing d s i else []
        else [] := by
  obtain ⟨haccounts, hcompletes⟩ := hmeets s result hparse
  obtain ⟨deltas, hsend, hown, hsum⟩ :=
    sendCalls_completes includeUsage chunk.finishReason haccounts hcompletes
  have hcontent : ∃ content, content = (if result.normalText.isEmpty then []
      else [SentChunk.content chunk.index result.normalText chunk.finishReason]) ∧
      (∀ delta, .toolCall delta ∉ content) ∧
      ∀ index i : Nat, sentArguments index i content = [] := by
    refine ⟨_, rfl, ?_⟩
    split <;> simp [sentArguments, SentChunk.argumentsFor]
  obtain ⟨content, hcontent, hnone, hempty⟩ := hcontent
  refine ⟨content ++ deltas.map .toolCall, ?_, ?_, ?_⟩
  · unfold processToolCallStream
    rw [hparse]
    dsimp only
    rw [hsend, ← hcontent]
    rfl
  · intro delta hdelta
    rcases List.mem_append.mp hdelta with hdelta | hdelta
    · exact absurd hdelta (hnone delta)
    · obtain ⟨_, hmem, heq⟩ := List.mem_map.mp hdelta
      cases heq
      obtain ⟨hindex, item, hitem, htool, harguments⟩ := hown delta hmem
      exact ⟨s, result, hparse, item, hitem, hindex, htool, harguments⟩
  · intro index i
    rw [sentArguments_append, hempty, List.nil_append]
    by_cases hindex : index = chunk.index
    · rw [if_pos hindex, hindex]
      exact hsum i
    · rw [if_neg hindex]
      apply sentArguments_of_ne
      intro delta hdelta heq
      exact hindex (heq.symm.trans (hown delta hdelta).1)

theorem stopped_concat (history : List ChoiceChunk) (chunk : ChoiceChunk) (index : Nat) :
    stopped (history ++ [chunk]) index =
      (stopped history index || (chunk.index = index && chunk.finishReason = some .stop)) := by
  unfold stopped
  rw [List.any_append, List.any_cons, List.any_nil, Bool.or_false]

theorem stopped_of_runs (h : Runs history chunk) : stopped history chunk.index = false := by
  unfold stopped
  rw [List.any_eq_false]
  intro earlier hmem hstop
  rw [Bool.and_eq_true, decide_eq_true_iff, decide_eq_true_iff] at hstop
  have hnone := h earlier hmem hstop.1
  rw [hstop.2] at hnone
  cases hnone

theorem detectorOf_update (parserDict : ParserDict d) (index index' : Nat) (s : d.State) :
    detectorOf d (Function.update parserDict index (some s)) index' =
      if index' = index then s else detectorOf d parserDict index' := by
  unfold detectorOf
  rw [Function.update_apply]
  split <;> rfl

/-- What is sent for a call is what is due, after every chunk. -/
theorem Reached.sent_eq_due (h : Reached d tools includeUsage parserDict history sent)
    (index i : Nat) : sentArguments index i sent = due d parserDict history index i := by
  induction h with
  | init =>
    have htext : textAt (d.streamedArgsForTool d.init) i = [] := by
      rw [d.init_streamed]
      rfl
    unfold due
    exact (congrArg (· ++ []) htext).symm
  | @step parserDict parserDict' history sent chunks chunk hreached hruns hmeets hstep ih =>
    cases hparse : d.parseStreamChunk tools (detectorOf d parserDict chunk.index) chunk.delta with
    | error e =>
      unfold processToolCallStream at hstep
      rw [hparse] at hstep
      cases hstep
    | ok parsed =>
      obtain ⟨s, result⟩ := parsed
      obtain ⟨chunks', hstep', -, hsum⟩ := processToolCallStream_meets includeUsage hmeets hparse
      obtain ⟨rfl, hdict⟩ := Prod.mk.inj (hstep'.symm.trans hstep)
      obtain rfl := Except.ok.inj hdict
      have haccounts := (hmeets s result hparse).1
      rw [sentArguments_append, ih, hsum]
      unfold due
      dsimp only
      rw [detectorOf_update, stopped_concat]
      by_cases hindex : index = chunk.index
      · subst hindex
        rw [if_pos rfl, if_pos rfl, stopped_of_runs hruns, haccounts i]
        simp
      · have hother : decide (chunk.index = index) = false :=
          decide_eq_false fun heq => hindex heq.symm
        rw [if_neg hindex, if_neg hindex, hother, Bool.false_and, Bool.or_false, List.append_nil]

/-- In a run whose chunks meet the condition every call is sent what is due, and a chunk that
meets it next sends each call by its own entries and finds them. -/
theorem Reached.arguments_completed (h : Reached d tools includeUsage parserDict history sent) :
    (∀ index i : Nat, sentArguments index i sent = due d parserDict history index i) ∧
      ∀ chunk, Meets d tools parserDict chunk →
        (∀ delta, .toolCall delta ∈
          (processToolCallStream d tools includeUsage parserDict chunk).1 →
            OwnDelta d tools parserDict chunk delta) ∧
          (processToolCallStream d tools includeUsage parserDict chunk).2 ≠ .error .indexError := by
  refine ⟨h.sent_eq_due, fun chunk hmeets => ?_⟩
  cases hparse : d.parseStreamChunk tools (detectorOf d parserDict chunk.index) chunk.delta with
  | error e =>
    have hstep : processToolCallStream d tools includeUsage parserDict chunk =
        ([], .error (.python e)) := by
      unfold processToolCallStream
      rw [hparse]
    rw [hstep]
    refine ⟨fun delta hdelta => absurd hdelta List.not_mem_nil, fun heq => ?_⟩
    cases heq
  | ok parsed =>
    obtain ⟨s, result⟩ := parsed
    obtain ⟨chunks, hstep, hown, -⟩ := processToolCallStream_meets includeUsage hmeets hparse
    rw [hstep]
    refine ⟨hown, fun heq => ?_⟩
    cases heq

end Run

/-! ### The detector of Qwen3-Coder -/

section Coder

theorem coder_accounts {lib : PyLib} {sets : Qwen3Coder.SetOrder} {tools : List Tool}
    {s s' : Qwen3Coder.State lib} {delta : Text} {result : StreamingParseResult} (hsound : s.Sound)
    (h : (Qwen3Coder.detector lib sets).parseStreamChunk tools s delta = .ok (s', result)) :
    s'.Sound ∧ Accounts s.streamedArgsForTool s'.streamedArgsForTool result.calls := by
  unfold ServedDetector.parseStreamChunk at h
  split at h
  · cases h
    exact ⟨hsound, Accounts.refl _⟩
  · exact Qwen3Coder.State.increment_accounts hsound h

theorem missing_of_le {d : ServedDetector} {s : d.State} {i : Nat}
    (h : (d.prevToolCallArr s).length ≤ i) : missing d s i = [] := by
  unfold missing expectedCall
  rw [List.getElem?_eq_none h]

def coder : ServedDetector := Qwen3Coder.detector textLib ⟨id, fun _ => .refl _⟩

def coderTools : List Tool := [⟨some ['f'], some (.obj [])⟩]

def openCall : Text := "<tool_call><function=f><parameter=a>1</parameter>".toList

def closeCall : Text := "</function></tool_call>".toList

/-- The call of a second choice has no entry at the index of the choice, and the second call
of one choice is sent the arguments of the first one. -/
theorem otherIndex_fails :
    (∃ parserDict sent,
      processToolCallStream coder coderTools false (fun _ => none) ⟨1, openCall, none⟩ =
          (sent, .ok parserDict) ∧
        (processToolCallStream coder coderTools false parserDict
          ⟨1, closeCall, some .stop⟩).2 = .error .indexError) ∧
    ∃ parserDict sent parserDict' sent',
      processToolCallStream coder coderTools false (fun _ => none)
          ⟨0, openCall ++ closeCall ++ "<tool_call><function=f>".toList, none⟩ =
          (sent, .ok parserDict) ∧
        processToolCallStream coder coderTools false parserDict
            ⟨0, "<parameter=b>2</parameter>".toList ++ closeCall, some .stop⟩ =
          (sent', .ok parserDict') ∧
        sentArguments 0 1 (sent ++ sent') = "\"a\": \"1\"\x7d\x7d".toList ∧
        textAt (coder.streamedArgsForTool (detectorOf coder parserDict' 0)) 1 =
          "\x7b\"b\": \"2\"\x7d".toList :=
  ⟨⟨_, _, rfl, rfl⟩, _, _, _, _, rfl, rfl, rfl, rfl⟩

def closedCall : Text := "\x7b\"a\": \"1\"\x7d".toList

/-- One call of the first choice, closed by the last chunk. -/
theorem oneCall_served : ∃ parserDict sent,
    Reached coder coderTools false parserDict
        [⟨0, openCall, none⟩, ⟨0, closeCall, some .stop⟩] sent ∧
      sentArguments 0 0 sent = closedCall := by
  obtain ⟨s, result, s', result', hparse, hparse', hcalls, hprev, hexpected, hstreamed⟩ :
      ∃ s result s' result',
        coder.parseStreamChunk coderTools coder.init openCall = .ok (s, result) ∧
        coder.parseStreamChunk coderTools s closeCall = .ok (s', result') ∧
        result'.calls = [⟨0, none, ['}']⟩] ∧ (coder.prevToolCallArr s').length = 1 ∧
        expectedCall coder s' 0 = .ok closedCall ∧
        coder.streamedArgsForTool s' = [closedCall] :=
    ⟨_, _, _, _, rfl, rfl, rfl, rfl, rfl, rfl⟩
  obtain ⟨hsound, haccounts⟩ := coder_accounts Qwen3Coder.State.sound_init hparse
  have hmeets : Meets coder coderTools (fun _ => none) ⟨0, openCall, none⟩ := by
    intro t shown h
    obtain ⟨rfl, rfl⟩ := Prod.mk.inj (Except.ok.inj (hparse.symm.trans h))
    exact ⟨haccounts, fun hstop => by cases hstop⟩
  obtain ⟨chunks, hstep, -, -⟩ := processToolCallStream_meets false hmeets hparse
  have hfirst := Reached.step .init (fun _ hmem => absurd hmem List.not_mem_nil) hmeets hstep
  have hdetector : detectorOf coder (Function.update (fun _ => none) 0 (some s)) 0 = s := by
    rw [detectorOf_update, if_pos rfl]
  have hmeets' : Meets coder coderTools (Function.update (fun _ => none) 0 (some s))
      ⟨0, closeCall, some .stop⟩ := by
    intro t shown h
    rw [hdetector] at h ⊢
    obtain ⟨rfl, rfl⟩ := Prod.mk.inj (Except.ok.inj (hparse'.symm.trans h))
    refine ⟨(coder_accounts hsound hparse').2, fun _ => ?_⟩
    rw [hcalls]
    refine ⟨rfl, ⟨closedCall, closedCall, hexpected, by rw [hstreamed]; rfl, List.prefix_rfl⟩, ?_,
      .inl rfl⟩
    intro i hi
    have hpos : 0 < i := Nat.pos_of_ne_zero hi
    exact missing_of_le (by rw [hprev]; exact hpos)
  obtain ⟨chunks', hstep', -, -⟩ := processToolCallStream_meets false hmeets' (by
    rw [hdetector]
    exact hparse')
  have hruns : Runs ([] ++ [⟨0, openCall, none⟩]) ⟨0, closeCall, some .stop⟩ := by
    intro earlier hmem _
    rw [List.mem_singleton.mp hmem]
  have hlast := hfirst.step hruns hmeets' hstep'
  refine ⟨_, _, hlast, ?_⟩
  refine ((Reached.arguments_completed hlast).1 0 0).trans ?_
  unfold due
  dsimp only
  rw [detectorOf_update, if_pos rfl, hstreamed]
  have hmissing : missing coder s' 0 = [] := by
    rw [missing_eq hexpected (by rw [hstreamed]; rfl) List.prefix_rfl, List.drop_length]
  rw [hmissing]
  rfl

end Coder

end SglJax.Entrypoints
