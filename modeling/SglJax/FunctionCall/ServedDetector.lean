import SglJax.FunctionCall.ToolCalls

/-! What the chat endpoint reads of a detector: the items of each increment, and two arrays
with an entry for each call. -/
namespace SglJax.FunctionCall

/-- A detector with the arrays that are read when a stream ends. An entry of
`prev_tool_call_arr` counts with its `arguments`. -/
structure ServedDetector where
  State : Type
  init : State
  Arguments : Type
  /-- `json.dumps(arguments, ensure_ascii=False)` -/
  dumps : Arguments → Except PyError Text
  prevToolCallArr : State → List (Option Arguments)
  streamedArgsForTool : State → List Text
  parseStreamingIncrement :
    List Tool → State → Text → Except PyError (State × StreamingParseResult)
  init_streamed : streamedArgsForTool init = []

/-- `FunctionCallParser.parse_stream_chunk` -/
def ServedDetector.parseStreamChunk (d : ServedDetector) (tools : List Tool) (s : d.State)
    (chunkText : Text) : Except PyError (d.State × StreamingParseResult) :=
  if tools.isEmpty then .ok (s, ⟨chunkText, []⟩)
  else d.parseStreamingIncrement tools s chunkText

/-! ### Texts of calls -/

/-- The arguments in the items of one call. -/
def itemsText (toolIndex : Int) (items : List ToolCallItem) : Text :=
  (items.filter fun item => item.toolIndex = toolIndex).flatMap ToolCallItem.parameters

def textAt (texts : List Text) (i : Nat) : Text := (texts[i]?).getD []

/-- The items are what an increment adds to `streamed_args_for_tool`. -/
def Accounts (before after : List Text) (items : List ToolCallItem) : Prop :=
  ∀ i : Nat, textAt after i = textAt before i ++ itemsText i items

variable {before mid after texts : List Text} {items items' : List ToolCallItem} {i : Nat}

theorem itemsText_cons (toolIndex : Int) (item : ToolCallItem) (rest : List ToolCallItem) :
    itemsText toolIndex (item :: rest) =
      (if item.toolIndex = toolIndex then item.parameters else []) ++ itemsText toolIndex rest := by
  unfold itemsText
  rw [List.filter_cons]
  by_cases h : item.toolIndex = toolIndex
  · rw [if_pos (decide_eq_true h), if_pos h, List.flatMap_cons]
  · rw [if_neg (by simpa using h), if_neg h, List.nil_append]

theorem itemsText_append (toolIndex : Int) (items items' : List ToolCallItem) :
    itemsText toolIndex (items ++ items') =
      itemsText toolIndex items ++ itemsText toolIndex items' := by
  unfold itemsText
  rw [List.filter_append, List.flatMap_append]

theorem itemsText_eq_nil {toolIndex : Int}
    (h : ∀ item ∈ items, item.toolIndex = toolIndex → item.parameters = []) :
    itemsText toolIndex items = [] := by
  unfold itemsText
  rw [List.flatMap_eq_nil_iff]
  intro item hitem
  obtain ⟨hmem, hindex⟩ := List.mem_filter.mp hitem
  exact h item hmem (of_decide_eq_true hindex)

theorem textAt_of_le (h : texts.length ≤ i) : textAt texts i = [] := by
  unfold textAt
  rw [List.getElem?_eq_none h]
  rfl

theorem textAt_set (hi : i < texts.length) (text : Text) (j : Nat) :
    textAt (texts.set i text) j = if i = j then text else textAt texts j := by
  unfold textAt
  rw [List.getElem?_set]
  split
  · rfl
  · rfl

/-- Entries that are added without a text. -/
theorem textAt_append_replicate (n j : Nat) :
    textAt (texts ++ List.replicate n []) j = textAt texts j := by
  unfold textAt
  rw [List.getElem?_append]
  split
  · rfl
  · rename_i hlength
    rw [List.getElem?_replicate, List.getElem?_eq_none (Nat.le_of_not_lt hlength)]
    split <;> rfl

theorem Accounts.refl (texts : List Text) : Accounts texts texts [] :=
  fun _ => (List.append_nil _).symm

theorem Accounts.trans (h : Accounts before mid items) (h' : Accounts mid after items') :
    Accounts before after (items ++ items') := by
  intro i
  rw [h', h, itemsText_append, List.append_assoc]

/-- One item, and the text of its call extended by its arguments. -/
theorem Accounts.extend (hi : i < texts.length) (name : Option Text) (parameters : Text) :
    Accounts texts (texts.set i (textAt texts i ++ parameters)) [⟨i, name, parameters⟩] := by
  intro j
  rw [textAt_set hi, itemsText_cons]
  dsimp only
  by_cases hij : i = j
  · subst hij
    rw [if_pos rfl, if_pos rfl]
    exact congrArg (textAt texts i ++ ·) (List.append_nil _).symm
  · have hne : (i : Int) ≠ (j : Int) := fun heq => hij (Int.ofNat.inj heq)
    rw [if_neg hij, if_neg hne]
    exact (List.append_nil _).symm

end SglJax.FunctionCall
