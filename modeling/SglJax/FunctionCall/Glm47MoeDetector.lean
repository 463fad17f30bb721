import SglJax.FunctionCall.GlmArguments

/-! The detector of GLM-4.7: the name of a call goes out when its arguments begin or its end
is there, and the arguments with it. -/
namespace SglJax.FunctionCall.Glm47

open Glm

/-- `get_argument_type` -/
def getArgumentType (tools : List Tool) (funcName argKey : Text) : Inferred :=
  match toolOf tools funcName with
  | none => .ok none
  | some tool =>
    match tool.parameters with
    | some (.obj members) => propertyType (Json.get? members "properties".toList) argKey
    | _ => .ok none

def argKeyStart : Text := "<arg_key".toList

/-- `<tool_call>(.*?)(?:(<arg_key.*?))?(?:(</tool_call>)|$)` -/
def partialPattern (text : Text) : Option PartialMatch :=
  match Text.find botToken text with
  | none => none
  | some start =>
    let body := text.drop (start + botToken.length)
    let stands := fun rest : Text =>
      argKeyStart.isPrefixOf rest || eotToken.isPrefixOf rest || Text.atEnd rest
    (Text.breakAt stands body).bind fun cut =>
      if argKeyStart.isPrefixOf cut.2 then
        (matchArgs cut.1 (cut.2.drop argKeyStart.length)).map fun found =>
          { found with funcArgs := argKeyStart ++ found.funcArgs }
      else matchArgs cut.1 cut.2

structure State where
  buffer : Text
  currentToolId : Int
  currentToolNameSent : Bool
  streamedRawLength : Nat
  lastArguments : Text
  machine : Machine
  toolCallCompleted : Bool
  sentEmptyObject : Bool

namespace State

def init : State := ⟨[], -1, false, 0, [], .reset, false, false⟩

variable (lib : PyLib) (s : State)

def item (parameters : Text) : ToolCallItem := ⟨s.currentToolId, none, parameters⟩

/-- `_reset_streaming_state` -/
def resetStreamingState : State :=
  { s with machine := .reset, toolCallCompleted := false, sentEmptyObject := false }

/-- `_send_tool_name_if_needed` -/
def sendToolNameIfNeeded (funcName : Text) (hasArgKey isToolEnd : Bool) :
    State × List ToolCallItem :=
  if s.currentToolNameSent then (s, [])
  else if !(hasArgKey || isToolEnd) then (s, [])
  else if funcName = [] then (s, [])
  else
    (({ s with currentToolNameSent := true, streamedRawLength := 0 } : State).resetStreamingState,
      [⟨s.currentToolId, some funcName, []⟩])

/-- `_process_arguments_streaming` -/
def processArgumentsStreaming (argType : Text → Inferred) (funcArgs : Text) :
    State × Except PyError (List ToolCallItem) :=
  if funcArgs.length ≤ s.streamedRawLength then (s, .ok [])
  else
    let processed := Machine.process lib argType s.machine (funcArgs.drop s.streamedRawLength)
    match processed.2 with
    | .error e => ({ s with machine := processed.1 }, .error e)
    | .ok output =>
      ({ s with
        machine := processed.1
        streamedRawLength := funcArgs.length
        lastArguments := s.lastArguments ++ output },
      .ok (if output = [] then [] else [s.item output]))

/-- What is missing of the object at the end of a call. -/
def closing : Text :=
  if s.machine.isFirstParam && !s.sentEmptyObject then ['{', '}']
  else if !List.isSuffixOf ['}'] s.lastArguments && !s.sentEmptyObject then ['}']
  else []

/-- `_finalize_tool_call`; `rest` is the text behind the call. -/
def finalizeToolCall (rest : Text) : State × List ToolCallItem :=
  (({ s with
    buffer := rest
    currentToolId := s.currentToolId + 1
    currentToolNameSent := false
    streamedRawLength := 0
    lastArguments := [] } : State).resetStreamingState,
  if s.closing = [] then [] else [s.item s.closing])

/-- An increment with the groups of its match. -/
def parseMatch (argType : Text → Text → Inferred) (normalText : Text) (hasArgKey : Bool)
    (found : PartialMatch) : State × StreamingParseResult :=
  let funcName := Text.strip found.funcName
  let s := if s.currentToolId = -1 then
      ({ s with
        currentToolId := 0
        streamedRawLength := 0
        currentToolNameSent := false } : State).resetStreamingState
    else s
  let named := s.sendToolNameIfNeeded funcName hasArgKey found.isToolEnd
  if named.1.currentToolNameSent then
    let sent := named.1.processArgumentsStreaming lib (argType funcName) (Text.strip found.funcArgs)
    match sent.2 with
    | .error _ => (sent.1, ⟨s.buffer, []⟩)
    | .ok calls =>
      if found.isToolEnd && !sent.1.toolCallCompleted then
        let finished := sent.1.finalizeToolCall found.rest
        (finished.1, ⟨normalText, named.2 ++ calls ++ finished.2⟩)
      else (sent.1, ⟨normalText, named.2 ++ calls⟩)
  else (named.1, ⟨normalText, named.2⟩)

def parseStreamingIncrement (argType : Text → Text → Inferred) (newText : Text) :
    State × StreamingParseResult :=
  let currentText := s.buffer ++ newText
  match Text.find botToken currentText with
  | none =>
    let split := withoutToolCall currentText
    ({ s with buffer := split.1 }, ⟨split.2, []⟩)
  | some start =>
    let callText := currentText.drop start
    let s := { s with buffer := callText }
    match partialPattern callText with
    | none => (s, ⟨currentText.take start, []⟩)
    | some found =>
      s.parseMatch lib argType (currentText.take start)
        ((Text.find argKeyStart callText).isSome) found

end State

def detector (lib : PyLib) : Detector where
  State := State
  init := .init
  buffer := State.buffer
  parseStreamingIncrement := fun tools s newText =>
    .ok (s.parseStreamingIncrement lib (getArgumentType tools) newText)

end SglJax.FunctionCall.Glm47
