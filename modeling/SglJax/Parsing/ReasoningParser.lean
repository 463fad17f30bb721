import SglJax.Foundation.PyText
import SglJax.Foundation.TextSearch

/-! `BaseReasoningFormatDetector`: the reasoning of a model's output is split from its
answer, for a whole text or chunk after chunk. -/
namespace SglJax.Parsing

structure StreamingParseResult where
  normalText : Text
  reasoningText : Text
deriving DecidableEq, Repr

/-- What a detector is made with. -/
structure ReasoningDetector where
  thinkStartToken : Text
  thinkEndToken : Text
  forceReasoning : Bool
  streamReasoning : Bool
  toolStartToken : Option Text
deriving DecidableEq, Repr

/-- What changes from chunk to chunk. -/
structure ReasoningState where
  inReasoning : Bool
  buffer : Text
  strippedThinkStart : Bool
deriving DecidableEq, Repr

namespace ReasoningDetector

variable (d : ReasoningDetector)

def init : ReasoningState where
  inReasoning := d.forceReasoning
  buffer := []
  strippedThinkStart := false

/-- An empty tool token counts as none. -/
def toolTokens : List Text := d.toolStartToken.toList.filter (· ≠ [])

def tokensToCheck : List Text := d.thinkStartToken :: d.thinkEndToken :: d.toolTokens

/-- Where the tool token is found. -/
def findTool (text : Text) : Option Nat := d.toolTokens.head?.bind fun token => Text.find token text

/-! ### Streaming -/

/-- The text may become a token. -/
def isHeld (current : Text) : Bool :=
  d.tokensToCheck.any fun token => current.isPrefixOf token && token != current

/-- The start token is in the text and is removed now. -/
def strips (s : ReasoningState) (current : Text) : Bool :=
  !s.strippedThinkStart && (Text.find d.thinkStartToken current).isSome

/-- The state with the text that is looked at, and the text without the start token. -/
def stripStart (s : ReasoningState) (current : Text) : ReasoningState × Text :=
  if d.strips s current then
    ({ inReasoning := true, buffer := current, strippedThinkStart := true },
      Text.remove d.thinkStartToken current)
  else ({ s with buffer := current }, current)

/-- Reasoning ends at the end token, else at the tool token, else it goes on. -/
def parseReasoning (s : ReasoningState) (current : Text) : ReasoningState × StreamingParseResult :=
  match Text.find d.thinkEndToken current with
  | some endIdx =>
    ({ s with buffer := [], inReasoning := false },
      { normalText := current.drop (endIdx + d.thinkEndToken.length)
        reasoningText := Text.rstrip (current.take endIdx) })
  | none =>
    match d.findTool current with
    | some toolIdx =>
      ({ s with buffer := [], inReasoning := false },
        { normalText := current.drop toolIdx, reasoningText := current.take toolIdx })
    | none =>
      if d.streamReasoning then ({ s with buffer := [] }, ⟨[], current⟩)
      else (s, ⟨[], []⟩)

def parseStreamingIncrement (s : ReasoningState) (newText : Text) :
    ReasoningState × StreamingParseResult :=
  let current := s.buffer ++ newText
  if d.isHeld current then ({ s with buffer := current }, ⟨[], []⟩)
  else
    let stripped := d.stripStart s current
    if stripped.1.inReasoning then d.parseReasoning stripped.1 stripped.2
    else ({ stripped.1 with buffer := [] }, ⟨newText, []⟩)

/-- The state and the results after all chunks. -/
def parseStream (s : ReasoningState) : List Text → ReasoningState × List StreamingParseResult
  | [] => (s, [])
  | chunk :: rest =>
    let parsed := d.parseStreamingIncrement s chunk
    let later := parseStream parsed.1 rest
    (later.1, parsed.2 :: later.2)

/-! ### Whole texts -/

/-- `detect_and_parse` of a detector that has read nothing yet. -/
def detectAndParse (text : Text) : StreamingParseResult :=
  if d.forceReasoning || d.thinkStartToken.isPrefixOf text then
    let processed := Text.strip (Text.remove d.thinkStartToken text)
    match Text.find d.thinkEndToken processed with
    | some endIdx =>
      { normalText := Text.strip (processed.drop (endIdx + d.thinkEndToken.length))
        reasoningText := processed.take endIdx }
    | none =>
      match d.toolStartToken.bind fun token => Text.find token processed with
      | some toolIdx =>
        { normalText := processed.drop toolIdx
          reasoningText := Text.strip (processed.take toolIdx) }
      | none => ⟨[], processed⟩
  else ⟨text, []⟩

end ReasoningDetector

/-- `Glm45Detector` -/
def glm45Detector (streamReasoning forceReasoning : Bool) : ReasoningDetector where
  thinkStartToken := "<think>".toList
  thinkEndToken := "</think>".toList
  forceReasoning := forceReasoning
  streamReasoning := streamReasoning
  toolStartToken := some "<tool_call>".toList

namespace StreamingParseResult

def reasoning (results : List StreamingParseResult) : Text := results.flatMap reasoningText

def normal (results : List StreamingParseResult) : Text := results.flatMap normalText

/-- All pieces, in the order in which they are emitted. -/
def emitted (results : List StreamingParseResult) : Text :=
  results.flatMap fun result => result.reasoningText ++ result.normalText

end StreamingParseResult

example : (glm45Detector true true).detectAndParse "<think>\nhm </think>\nYes ".toList =
    ⟨"Yes".toList, "hm ".toList⟩ := by decide

end SglJax.Parsing
