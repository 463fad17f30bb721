import SglJax.FunctionCall.MiMoDetector
import SglJax.FunctionCall.Glm4MoeDetector
import SglJax.FunctionCall.Glm47MoeDetector

/-! What the chunks of a text mean for what a detector shows of it: only a text without tags
is shown the same, and as a whole, however it is cut. -/
namespace SglJax.FunctionCall

/-- Moreover nothing of the text stays behind. -/
def Detector.Lossless (d : Detector) (text : Text) : Prop :=
  ∀ tools, ∃ shown, ∀ chunks : List Text, chunks.flatten = text →
    d.finished tools chunks = .ok (shown, [])

structure Untagged (text : Text) : Prop where
  noBot : ¬ botToken <:+: text
  noEot : ¬ eotToken <:+: text

namespace Glm

/-! ### Starts of the first tag -/

theorem isPotentialStart_nil : isPotentialStart [] = false := rfl

/-- A GLM detector: without the first tag it keeps or shows the whole buffer. -/
structure Holds (d : Detector) where
  state : Text → d.State
  init_eq : d.init = state []
  buffer_eq : ∀ buffer, d.buffer (state buffer) = buffer
  step_eq : ∀ tools buffer newText, ¬ botToken <:+: buffer ++ newText →
    d.parseStreamingIncrement tools (state buffer) newText =
      .ok (state (withoutToolCall (buffer ++ newText)).1,
        ⟨(withoutToolCall (buffer ++ newText)).2, []⟩)

/-- The text that is shown of the chunks, and the text that is kept of them. -/
def hold : Text → List Text → Text × Text
  | buffer, [] => ([], buffer)
  | buffer, chunk :: rest =>
    let split := withoutToolCall (buffer ++ chunk)
    let more := hold split.1 rest
    (split.2 ++ more.1, more.2)

end Glm
end SglJax.FunctionCall
