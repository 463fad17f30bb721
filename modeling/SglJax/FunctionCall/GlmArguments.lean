import SglJax.FunctionCall.SchemaTypes

/-! The state machine of the GLM detectors: the tags of keys and values become the text of a
JSON object, one character at a time. -/
namespace SglJax.FunctionCall.Glm

inductive StreamState where
  | init
  | between
  | inKey
  | waitingValue
  | inValue
deriving DecidableEq, Repr

structure Machine where
  streamState : StreamState
  currentKey : Text
  currentValue : Text
  xmlTagBuffer : Text
  isFirstParam : Bool
  valueStarted : Bool
  cachedValueType : Option Json

/-- `_reset_streaming_state` -/
def Machine.reset : Machine := ⟨.init, [], [], [], true, false, none⟩

def argKeyOpen : Text := "<arg_key>".toList

def argKeyClose : Text := "</arg_key>".toList

def argValueOpen : Text := "<arg_value>".toList

def argValueClose : Text := "</arg_value>".toList

/-- `_get_value_type`; the current value is empty when it is asked for, so that a key without
a type has a string. -/
def getValueType (argType : Option Json) : Json :=
  match argType with
  | some type => if type.truthy then type else .str "string".toList
  | none => .str "string".toList

/-- `_convert_to_number` as a text -/
def convertToNumber (lib : PyLib) (value : Text) : Text :=
  if value.any fun c => c = '.' || c = 'e' || c = 'E' then (lib.floatText value).getD value
  else ((Text.toInt value).map fun n => (toString n).toList).getD value

/-- `_format_value_complete` -/
def formatValueComplete (lib : PyLib) (value : Text) (valueType : Json) : Text :=
  if valueType.isStr "string".toList then Json.dumpsText value
  else if valueType.isStr "number".toList then convertToNumber lib (Text.strip value)
  else value

namespace Machine

variable (lib : PyLib) (m : Machine)

/-- `_cached_value_type or "string"` -/
def valueType : Json := getValueType m.cachedValueType

def holdsString : Bool := m.valueType.isStr "string".toList

/-- The value is closed. -/
def closeValue : Machine × Text :=
  let finalValue := m.xmlTagBuffer.take (m.xmlTagBuffer.length - argValueClose.length)
  let value := m.currentValue ++ finalValue
  let output :=
    if m.valueStarted then
      if m.holdsString then Json.escape finalValue ++ ['"'] else finalValue
    else formatValueComplete lib value m.valueType
  ({ m with
    streamState := .between
    currentValue := []
    xmlTagBuffer := []
    valueStarted := false
    cachedValueType := none }, output)

/-- What cannot be part of the closing tag is written. -/
def writeValue : Machine × Text :=
  let output :=
    if m.holdsString then
      (if m.valueStarted then [] else ['"']) ++ Json.escape m.xmlTagBuffer
    else m.xmlTagBuffer
  ({ m with
    currentValue := m.currentValue ++ m.xmlTagBuffer
    xmlTagBuffer := []
    valueStarted := true }, output)

/-- The character is in the buffer already. -/
def react (argType : Text → Inferred) : Machine × Except PyError Text :=
  match m.streamState with
  | .init | .between =>
    if argKeyOpen.isSuffixOf m.xmlTagBuffer then
      ({ m with
        streamState := .inKey
        currentKey := []
        xmlTagBuffer := []
        isFirstParam := false }, .ok (if m.isFirstParam then ['{'] else [',', ' ']))
    else (m, .ok [])
  | .inKey =>
    if argKeyClose.isSuffixOf m.xmlTagBuffer then
      let key := Text.strip
        (m.xmlTagBuffer.take (m.xmlTagBuffer.length - argKeyClose.length))
      ({ m with streamState := .waitingValue, currentKey := key, xmlTagBuffer := [] },
        .ok (Json.dumpsText key ++ [':', ' ']))
    else (m, .ok [])
  | .waitingValue =>
    if argValueOpen.isSuffixOf m.xmlTagBuffer then
      let opened := { m with
        streamState := .inValue
        currentValue := []
        xmlTagBuffer := []
        valueStarted := false }
      match argType m.currentKey with
      | .error e => (opened, .error e)
      | .ok type => ({ opened with cachedValueType := some (getValueType type) }, .ok [])
    else (m, .ok [])
  | .inValue =>
    if argValueClose.isSuffixOf m.xmlTagBuffer then
      let closed := m.closeValue lib
      (closed.1, .ok closed.2)
    else if m.xmlTagBuffer.isPrefixOf argValueClose then (m, .ok [])
    else
      let written := m.writeValue
      (written.1, .ok written.2)

def feed (argType : Text → Inferred) (c : Char) : Machine × Except PyError Text :=
  ({ m with xmlTagBuffer := m.xmlTagBuffer ++ [c] } : Machine).react lib argType

/-- `_process_xml_to_json_streaming`; an error leaves the machine where it stands. -/
def process (argType : Text → Inferred) : Machine → Text → Machine × Except PyError Text
  | m, [] => (m, .ok [])
  | m, c :: rest =>
    match m.feed lib argType c with
    | (m, .error e) => (m, .error e)
    | (m, .ok output) =>
      let more := process argType m rest
      (more.1, more.2.map (output ++ ·))

end Machine

/-! ### What both detectors share -/

/-- Whether the end of a text may be the start of the first tag. -/
def isPotentialStart (text : Text) : Bool :=
  (List.range (min text.length botToken.length)).any fun i =>
    (text.drop (text.length - (i + 1))).isPrefixOf botToken

/-- What an increment does with a text without the first tag: the text that it keeps and
the text that it shows. -/
def withoutToolCall (currentText : Text) : Text × Text :=
  if isPotentialStart currentText then (currentText, [])
  else ([], Text.remove eotToken currentText)

/-- The groups of a match, and the text behind it. -/
structure PartialMatch where
  funcName : Text
  funcArgs : Text
  isToolEnd : Bool
  rest : Text
deriving DecidableEq, Repr

/-- `(.*?)(</tool_call>|$)` -/
def matchArgs (funcName text : Text) : Option PartialMatch :=
  (Text.breakAt (fun rest => eotToken.isPrefixOf rest || Text.atEnd rest) text).map fun cut =>
    ⟨funcName, cut.1, eotToken.isPrefixOf cut.2, cut.2.drop eotToken.length⟩

/-- The length of a newline, which may be written as `\n`. -/
def newlineLength (text : Text) : Nat :=
  if ['\\', 'n'].isPrefixOf text then 2 else if ['\n'].isPrefixOf text then 1 else 0

end SglJax.FunctionCall.Glm
