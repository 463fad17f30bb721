import SglJax.FunctionCall.StreamCuts

/-! The cuts that all detectors agree on: MiMo shows the start tag of a call when it is cut,
so that no text with a named call is shown the same for all cuts. -/
namespace SglJax.FunctionCall

namespace MiMo

variable (lib : PyLib)

end MiMo

/-- No tag, and no end that may become one; a text that may be the start of a tag all along
waits for its end with every cut. -/
def Settled (text : Text) : Prop :=
  Untagged text ∧ (Glm.isPotentialStart text = false ∨
    ∀ before, before ≠ [] → before <+: text → Glm.isPotentialStart before = true)

/-- A library whose values are their texts. -/
def textLib : PyLib where
  Val := Text
  ofNone := "null".toList
  ofText := Json.dumpsText
  ofInt := fun n => (toString n).toList
  ofBool := fun b => (toString b).toList
  unescape := id
  loads := fun _ => none
  literalEval := fun _ => none
  floatValue := fun _ => .error .valueError
  floatText := fun _ => none
  dumps := .ok
  same := fun a b => a = b

end SglJax.FunctionCall
