import SglJax.FunctionCall.ToolCalls

/-! The detector of MiMo: a stream is buffered until a block is closed, and the block is
parsed as a whole. -/
namespace SglJax.FunctionCall.MiMo

variable (lib : PyLib)

/-! ### Values of parameters -/

/-- `name in props` and `props[name].get("type", "string")`. -/
def typeIn (props : Json) (paramName : Text) : Except PyError (Option Json) :=
  match props with
  | .obj members =>
    match Json.get? members paramName with
    | none => .ok none
    | some (.obj schema) => .ok (some ((Json.get? schema "type".toList).getD (.str "string".toList)))
    | some _ => .error .attributeError
  | .arr items => if items.any (Json.isStr paramName) then .error .typeError else .ok none
  | .str text => if (Text.find paramName text).isSome then .error .typeError else .ok none
  | _ => .error .typeError

/-- `_get_param_type` -/
def getParamType (funcName paramName : Text) : List Tool → Except PyError Json
  | [] => .ok (.str "string".toList)
  | tool :: rest =>
    if tool.name = some funcName then
      match tool.parameters with
      | some (.obj members) =>
        match typeIn ((Json.get? members "properties".toList).getD (.obj [])) paramName with
        | .error e => .error e
        | .ok (some type) => .ok type
        | .ok none => getParamType funcName paramName rest
      | _ => .error .attributeError
    else getParamType funcName paramName rest

def intTypes : List Text := ["int", "integer", "uint", "long", "short", "unsigned"].map String.toList

def stringTypes : List Text :=
  ["string", "str", "text", "varchar", "char", "enum"].map String.toList

/-- The kinds of types that values are converted to. -/
inductive ParamKind where
  | string
  | int
  | float
  | bool
  | json
  | literal
deriving DecidableEq, Repr

/-- Which conversion a type asks for. -/
def paramKind (paramType : Text) : ParamKind :=
  if paramType ∈ stringTypes then .string
  else if intTypes.any fun start => start.isPrefixOf paramType then .int
  else if "num".toList.isPrefixOf paramType ∨ "float".toList.isPrefixOf paramType then .float
  else if paramType ∈ ["boolean", "bool", "binary"].map String.toList then .bool
  else if paramType ∈ ["object", "array", "arr"].map String.toList ∨
      "dict".toList.isPrefixOf paramType ∨ "list".toList.isPrefixOf paramType then .json
  else .literal

def literalValue (value : Text) : lib.Val := (lib.literalEval value).getD (lib.ofText value)

/-- A value that cannot be converted stays a text. -/
def convertTo (value : Text) : ParamKind → Except PyError lib.Val
  | .string => .ok (lib.ofText value)
  | .int => .ok (((Text.toInt value).map lib.ofInt).getD (lib.ofText value))
  | .float =>
    match lib.floatValue value with
    | .ok number => .ok number
    | .error .overflowError => .error .overflowError
    | .error _ => .ok (lib.ofText value)
  | .bool => .ok (lib.ofBool (value.map Char.toLower = "true".toList))
  | .json => .ok ((lib.loads value).getD (literalValue lib value))
  | .literal => .ok (literalValue lib value)

/-- `_convert_param_value` -/
def convertParamValue (tools : List Tool) (funcName paramName paramValue : Text) :
    Except PyError lib.Val :=
  let value := lib.unescape paramValue
  if value.map Char.toLower = "null".toList then .ok lib.ofNone
  else
    match getParamType funcName paramName tools with
    | .error e => .error e
    | .ok (.str paramType) => convertTo lib value (paramKind paramType)
    | .ok _ => .error .attributeError

/-! ### Blocks -/

def toolCallRegex : Text.Pattern Text := Text.between botToken eotToken

def funcRegex : Text.Pattern (Text × Text) := Text.tagged "<function=".toList "</function>".toList

def paramRegex : Text.Pattern (Text × Text) :=
  Text.tagged "<parameter=".toList "</parameter>".toList

def parseParams (tools : List Tool) (funcName : Text) :
    List (Text × Text) → List (Text × lib.Val) → Except PyError (List (Text × lib.Val))
  | [], params => .ok params
  | found :: rest, params =>
    let paramName := Text.strip found.1
    match convertParamValue lib tools funcName paramName found.2 with
    | .error e => .error e
    | .ok value => parseParams tools funcName rest (setParam params paramName value)

/-- `_parse_tool_call` -/
def parseToolCall (tools : List Tool) (toolCallBody : Text) :
    Except PyError (Option (Text × List (Text × lib.Val))) :=
  match Text.search funcRegex toolCallBody with
  | none => .ok none
  | some func =>
    let funcName := Text.strip func.1
    (parseParams lib tools funcName (Text.finditer paramRegex func.2) []).map fun params =>
      some (funcName, params)

/-- The text to show and the calls, from the blocks and what stands between them. A block of
an unknown function is shown with the text before it. -/
def parseBlocks (tools : List Tool) :
    List (Char ⊕ Text × Text) → Text → Except PyError StreamingParseResult
  | [], _ => .ok .empty
  | .inl c :: rest, passed => parseBlocks tools rest (passed ++ [c])
  | .inr (body, block) :: rest, passed =>
    match parseToolCall lib tools body with
    | .error e => .error e
    | .ok none => parseBlocks tools rest []
    | .ok (some (funcName, params)) =>
      if isTool tools funcName then
        match parseBaseJson lib tools funcName params with
        | .error e => .error e
        | .ok calls => (parseBlocks tools rest []).map (StreamingParseResult.append ⟨[], calls⟩)
      else (parseBlocks tools rest []).map (StreamingParseResult.append ⟨passed ++ block, []⟩)

def detectAndParse (tools : List Tool) (text : Text) : Except PyError StreamingParseResult :=
  match Text.find botToken text with
  | none => .ok ⟨text, []⟩
  | some idx =>
    (parseBlocks lib tools (Text.parts toolCallRegex (text.drop idx)) []).map
      (StreamingParseResult.append ⟨text.take idx, []⟩)

/-! ### Streams -/

structure State where
  buffer : Text
  currentToolId : Int
deriving DecidableEq, Repr

/-- The first call gets the current index. -/
def numberCall (s : State) (result : StreamingParseResult) : State × StreamingParseResult :=
  match result.calls with
  | [] => (s, result)
  | call :: more =>
    let id := if s.currentToolId = -1 then 0 else s.currentToolId
    ({ s with currentToolId := id + 1 },
      { result with calls := { call with toolIndex := id } :: more })

def parseStreamingIncrement (tools : List Tool) (s : State) (newText : Text) :
    Except PyError (State × StreamingParseResult) :=
  let currentText := s.buffer ++ newText
  match Text.find botToken currentText with
  | none =>
    if s.currentToolId > 0 then .ok ({ s with buffer := currentText }, .empty)
    else .ok ({ s with buffer := [] }, ⟨currentText, []⟩)
  | some start =>
    match Text.find eotToken (currentText.drop start) with
    | none => .ok ({ s with buffer := currentText.drop start }, ⟨currentText.take start, []⟩)
    | some length =>
      let stop := start + length + eotToken.length
      (detectAndParse lib tools (currentText.take stop)).map fun result =>
        numberCall { s with buffer := currentText.drop stop } result

def detector : Detector where
  State := State
  init := ⟨[], -1⟩
  buffer := State.buffer
  parseStreamingIncrement := parseStreamingIncrement lib

end SglJax.FunctionCall.MiMo
