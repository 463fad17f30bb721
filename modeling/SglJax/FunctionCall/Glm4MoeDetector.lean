import SglJax.FunctionCall.GlmArguments

/-! The detectors of GLM-4.5 and of Ling 3: the name of a call goes out first, and its
arguments with the chunks that follow. -/
namespace SglJax.FunctionCall

namespace Glm4

open Glm

/-- `get_argument_type` -/
def getArgumentType (tools : List Tool) (funcName argKey : Text) : Inferred :=
  match toolOf tools funcName with
  | none => .ok none
  | some tool =>
    match tool.parameters with
    | some (.obj members) => propertyType (Json.get? members "properties".toList) argKey
    | some parameters => if parameters.truthy then .error .attributeError else .ok none
    | none => .ok none

/-- `_STREAMING_PARTIAL_PATTERN`: `<tool_call>(.*?)(?:\\n|\n)(.*?)(</tool_call>|$)` -/
def partialPattern (text : Text) : Option PartialMatch :=
  match Text.find botToken text with
  | none => none
  | some start =>
    let body := text.drop (start + botToken.length)
    (Text.breakAt (fun rest => 0 < newlineLength rest) body).bind fun cut =>
      matchArgs cut.1 (cut.2.drop (newlineLength cut.2))

structure State where
  buffer : Text
  currentToolId : Int
  currentToolNameSent : Bool
  streamedRawLength : Nat
  lastArguments : Text
  machine : Machine

def State.init : State := ⟨[], -1, false, 0, [], .reset⟩

namespace State

variable (lib : PyLib) (s : State)

def item (parameters : Text) : ToolCallItem := ⟨s.currentToolId, none, parameters⟩

/-- The name of a call goes out. -/
def sendName (funcName : Text) : State × StreamingParseResult :=
  ({ s with currentToolNameSent := true, streamedRawLength := 0, machine := .reset },
    ⟨[], [⟨s.currentToolId, some funcName, []⟩]⟩)

/-- What is missing of the object at the end of a call. -/
def closing : Text :=
  if s.machine.isFirstParam then ['{', '}']
  else if ['}'].isSuffixOf s.lastArguments then []
  else ['}']

/-- The end of a call; `rest` is the text behind it. -/
def finish (rest : Text) : State × List ToolCallItem :=
  ({ s with
    buffer := rest
    currentToolId := s.currentToolId + 1
    currentToolNameSent := false
    streamedRawLength := 0
    lastArguments := []
    machine := .reset },
  if s.closing = [] then [] else [s.item s.closing])

/-- The arguments that are new, as JSON. -/
def sendArguments (argType : Text → Inferred) (funcArgs : Text) :
    State × Except PyError (List ToolCallItem) :=
  if s.streamedRawLength < funcArgs.length then
    let processed := Machine.process lib argType s.machine (funcArgs.drop s.streamedRawLength)
    match processed.2 with
    | .error e => ({ s with machine := processed.1 }, .error e)
    | .ok output =>
      ({ s with
        machine := processed.1
        streamedRawLength := funcArgs.length
        lastArguments := s.lastArguments ++ output },
      .ok (if output = [] then [] else [s.item output]))
  else (s, .ok [])

/-- An increment with the groups of its match. -/
def parseMatch (argType : Text → Text → Inferred) (found : PartialMatch) :
    State × StreamingParseResult :=
  let funcName := Text.strip found.funcName
  let s := if s.currentToolId = -1 then
      { s with
        currentToolId := 0
        streamedRawLength := 0
        currentToolNameSent := false
        machine := .reset }
    else s
  if !s.currentToolNameSent then s.sendName funcName
  else
    let sent := s.sendArguments lib (argType funcName) (Text.strip found.funcArgs)
    match sent.2 with
    | .error _ => (sent.1, ⟨s.buffer, []⟩)
    | .ok calls =>
      if found.isToolEnd then
        let finished := sent.1.finish found.rest
        (finished.1, ⟨[], calls ++ finished.2⟩)
      else (sent.1, ⟨[], calls⟩)

def parseStreamingIncrement (pattern : Text → Option PartialMatch)
    (argType : Text → Text → Inferred) (newText : Text) : State × StreamingParseResult :=
  let currentText := s.buffer ++ newText
  match Text.find botToken currentText with
  | none =>
    let split := withoutToolCall currentText
    ({ s with buffer := split.1 }, ⟨split.2, []⟩)
  | some _ =>
    let s := { s with buffer := currentText }
    match pattern currentText with
    | none => (s, .empty)
    | some found =>
      if Text.strip found.funcName = [] then (s, .empty) else s.parseMatch lib argType found

end State

/-- A detector with the increments of `Glm4MoeDetector`. -/
def detectorWith (lib : PyLib) (pattern : Text → Option PartialMatch) : Detector where
  State := State
  init := .init
  buffer := State.buffer
  parseStreamingIncrement := fun tools s newText =>
    .ok (s.parseStreamingIncrement lib pattern (getArgumentType tools) newText)

def detector (lib : PyLib) : Detector := detectorWith lib partialPattern

end Glm4

namespace Ling3

open Glm

/-- Where the name of a function ends. -/
def endsName (rest : Text) : Bool :=
  0 < newlineLength rest || argKeyOpen.isPrefixOf rest || eotToken.isPrefixOf rest

/-- `<tool_call>\s*(.*?)(?:(?:\\n|\n)\s*|(?=<arg_key>)|(?=</tool_call>))(.*?)(</tool_call>|$)`:
as many spaces are skipped as leave a match. -/
def partialPattern (text : Text) : Option PartialMatch :=
  match Text.find botToken text with
  | none => none
  | some start =>
    let body := text.drop (start + botToken.length)
    let spaces := (body.takeWhile Text.isSpace).length
    let cut := (List.range (spaces + 1)).reverse.findSome? fun skip =>
      Text.breakAt endsName (body.drop skip)
    cut.bind fun cut =>
      let args := if 0 < newlineLength cut.2 then
          Text.lstrip (cut.2.drop (newlineLength cut.2))
        else cut.2
      matchArgs cut.1 args

def detector (lib : PyLib) : Detector := Glm4.detectorWith lib partialPattern

end Ling3
end SglJax.FunctionCall
