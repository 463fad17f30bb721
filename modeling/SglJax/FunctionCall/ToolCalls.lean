import SglJax.Foundation.Json
import SglJax.Foundation.TextMatch

/-! Detectors of tool calls in the text of a model, and what a stream of chunks gives. -/
namespace SglJax.FunctionCall

def botToken : Text := "<tool_call>".toList

def eotToken : Text := "</tool_call>".toList

/-- Errors that the code does not catch. -/
inductive PyError where
  | typeError
  | attributeError
  | valueError
  | overflowError
deriving DecidableEq, Repr

/-- A tool; `parameters` is its schema. -/
structure Tool where
  name : Option Text
  parameters : Option Json

structure ToolCallItem where
  toolIndex : Int
  name : Option Text
  parameters : Text
deriving DecidableEq, Repr

structure StreamingParseResult where
  normalText : Text
  calls : List ToolCallItem
deriving DecidableEq, Repr

namespace StreamingParseResult

def empty : StreamingParseResult := ⟨[], []⟩

def append (a b : StreamingParseResult) : StreamingParseResult :=
  ⟨a.normalText ++ b.normalText, a.calls ++ b.calls⟩

end StreamingParseResult

/-- The keys of `_get_tool_indices`. -/
def isTool (tools : List Tool) (name : Text) : Bool :=
  name ≠ [] && tools.any fun tool => tool.name = some name

/-- The values of arguments, and what the standard library does with them. -/
structure PyLib where
  Val : Type
  ofNone : Val
  ofText : Text → Val
  ofInt : Int → Val
  ofBool : Bool → Val
  /-- `html.unescape` -/
  unescape : Text → Text
  /-- `json.loads`; `none` is the `JSONDecodeError`. -/
  loads : Text → Option Val
  /-- `ast.literal_eval`; `none` is an error. -/
  literalEval : Text → Option Val
  /-- `float`, as an `int` when it is whole. -/
  floatValue : Text → Except PyError Val
  /-- `str(float(text))`; `none` is the `ValueError`. -/
  floatText : Text → Option Text
  /-- `json.dumps(value, ensure_ascii=False)` -/
  dumps : Val → Except PyError Text
  /-- `==` -/
  same : Val → Val → Bool

/-- `params[name] = value` -/
def setParam {V : Type} (params : List (Text × V)) (name : Text) (value : V) : List (Text × V) :=
  if params.any fun param => param.1 = name then
    params.map fun param => if param.1 = name then (name, value) else param
  else params ++ [(name, value)]

/-- The members of a written object. -/
def dumpsItems (lib : PyLib) : List (Text × lib.Val) → Except PyError (List Text)
  | [] => .ok []
  | param :: rest =>
    match lib.dumps param.2, dumpsItems lib rest with
    | .ok value, .ok later => .ok ((Json.dumpsText param.1 ++ [':', ' '] ++ value) :: later)
    | .error e, _ => .error e
    | .ok _, .error e => .error e

/-- `", ".join(items)` -/
def joinItems (items : List Text) : Text := (items.intersperse [',', ' ']).flatten

/-- `json.dumps(params, ensure_ascii=False)` -/
def dumpsParams (lib : PyLib) (params : List (Text × lib.Val)) : Except PyError Text :=
  (dumpsItems lib params).map fun items => '{' :: joinItems items ++ ['}']

/-- `parse_base_json` for one action. -/
def parseBaseJson (lib : PyLib) (tools : List Tool) (name : Text) (params : List (Text × lib.Val)) :
    Except PyError (List ToolCallItem) :=
  if isTool tools name then
    (dumpsParams lib params).map fun parameters => [⟨-1, some name, parameters⟩]
  else .ok []

/-- The streaming side of a detector; `buffer` is the text that waits for the next chunk. -/
structure Detector where
  State : Type
  init : State
  buffer : State → Text
  parseStreamingIncrement : List Tool → State → Text → Except PyError (State × StreamingParseResult)

namespace Detector

variable (d : Detector) (tools : List Tool)

/-- The texts and the items of a stream of chunks. -/
def run (s : d.State) : List Text → Except PyError (d.State × StreamingParseResult)
  | [] => .ok (s, .empty)
  | chunk :: rest =>
    match d.parseStreamingIncrement tools s chunk with
    | .error e => .error e
    | .ok (s, result) => (run s rest).map fun more => (more.1, result.append more.2)

end Detector

/-- A call of a stream. -/
structure StreamedCall where
  toolIndex : Int
  name : Option Text
  parameters : Text
deriving DecidableEq, Repr

/-- Items with one index are parts of one call. -/
def addItem (calls : List StreamedCall) (item : ToolCallItem) : List StreamedCall :=
  if calls.any fun call => call.toolIndex = item.toolIndex then
    calls.map fun call =>
      if call.toolIndex = item.toolIndex then
        { call with
          name := call.name.or item.name
          parameters := call.parameters ++ item.parameters }
      else call
  else calls ++ [⟨item.toolIndex, item.name, item.parameters⟩]

/-- What a client has after the last chunk. -/
structure Streamed where
  normalText : Text
  calls : List StreamedCall
deriving DecidableEq, Repr

def StreamingParseResult.streamed (result : StreamingParseResult) : Streamed :=
  ⟨result.normalText, result.calls.foldl addItem []⟩

/-- What a stream gives, and the text that waits in vain. -/
def Detector.finished (d : Detector) (tools : List Tool) (chunks : List Text) :
    Except PyError (Streamed × Text) :=
  (d.run tools d.init chunks).map fun ended => (ended.2.streamed, d.buffer ended.1)

def Detector.streamed (d : Detector) (tools : List Tool) (chunks : List Text) :
    Except PyError Streamed :=
  (d.finished tools chunks).map Prod.fst

end SglJax.FunctionCall
