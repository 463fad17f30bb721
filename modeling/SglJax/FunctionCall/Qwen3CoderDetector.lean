import SglJax.Foundation.Results
import SglJax.FunctionCall.MiMoDetector
import SglJax.FunctionCall.ServedDetector

/-! The streaming side of the detector of Qwen3-Coder: the name of a call goes out first,
then its parameters as they are closed, as the growing text of a JSON object. -/
namespace SglJax.FunctionCall.Qwen3Coder

/-- The order in which a set of texts is gone through. -/
structure SetOrder where
  order : List Text → List Text
  perm : ∀ keys, (order keys).Perm keys

section Parameters

variable (lib : PyLib)

/-- `_safe_val` -/
def safeVal (raw : Text) : lib.Val :=
  let raw := lib.unescape (Text.strip raw)
  (lib.loads raw).getD ((lib.literalEval raw).getD (lib.ofText raw))

/-- `<function=([^>]+)>` -/
def functionPattern : Text.Pattern Text := fun text =>
  let start := "<function=".toList
  if start.isPrefixOf text then
    (Text.find ['>'] (text.drop start.length)).bind fun n =>
      if n = 0 then none else some ((text.drop start.length).take n, start.length + (n + 1))
  else none

/-- `re.search` with the text behind the match -/
def searchRest {M : Type} (pattern : Text.Pattern M) : Text → Option (M × Text)
  | [] => (pattern []).map fun found => (found.1, [])
  | c :: rest =>
    match pattern (c :: rest) with
    | some (m, length) => some (m, (c :: rest).drop length)
    | none => searchRest pattern rest

/-- The closed parameters of a text. A name that stands twice keeps its first place. -/
def closedParameters (textToParse : Text) : List (Text × lib.Val) :=
  (Text.finditer MiMo.paramRegex textToParse).foldl
    (fun params found => setParam params (Text.strip found.1) (safeVal lib found.2)) []

/-- `==` of two dictionaries -/
def sameParams (params params' : List (Text × lib.Val)) : Bool :=
  params.length = params'.length &&
    params.all fun param => params'.any fun param' =>
      param.1 = param'.1 && lib.same param.2 param'.2

/-- The parameters whose names are not in the old ones. -/
def newParameters (sets : SetOrder) (params old : List (Text × lib.Val)) :
    List (Text × lib.Val) :=
  (sets.order ((params.map Prod.fst).filter fun key => !(old.map Prod.fst).contains key)).filterMap
    fun key => params.find? fun param => param.1 = key

/-- An entry of `prev_tool_call_arr`. -/
structure PrevCall where
  name : Option Text
  arguments : Option (List (Text × lib.Val))

structure State where
  buf : Text
  currentToolId : Int
  currentParameters : List (Text × lib.Val)
  inToolCall : Bool
  functionNameSent : Bool
  prevToolCallArr : List (PrevCall lib)
  streamedArgsForTool : List Text

def State.init : State lib := ⟨[], -1, [], false, false, [], []⟩

end Parameters

namespace State

variable {lib : PyLib} (s : State lib)

/-- `_reset_streaming_state` -/
def resetStreamingState : State lib :=
  { s with inToolCall := false, functionNameSent := false, currentParameters := [] }

/-- The start token is found at `start`. -/
def enterCall (start : Nat) : State lib :=
  { s with
    buf := s.buf.drop (start + botToken.length)
    inToolCall := true
    functionNameSent := false
    currentParameters := [] }

/-- The name of a call goes out; `rest` is the text behind it. -/
def sendName (functionName rest : Text) : State lib × List ToolCallItem :=
  let id := if s.currentToolId = -1 then 0 else s.currentToolId
  let prev := s.prevToolCallArr ++
    List.replicate (id.toNat + 1 - s.prevToolCallArr.length) ⟨none, none⟩
  let streamed := s.streamedArgsForTool ++
    List.replicate (id.toNat + 1 - s.streamedArgsForTool.length) []
  ({ s with
      buf := rest
      currentToolId := id
      functionNameSent := true
      prevToolCallArr := prev.set id.toNat ⟨some functionName, some []⟩
      streamedArgsForTool := streamed },
    [⟨id, some functionName, []⟩])

/-- An item for the current call, whose text is now `text`. -/
def sendArguments (parameters text : Text) : State lib × List ToolCallItem :=
  ({ s with
      streamedArgsForTool := s.streamedArgsForTool.set s.currentToolId.toNat text },
    [⟨s.currentToolId, none, parameters⟩])

def storeParameters (params : List (Text × lib.Val)) : State lib :=
  { s with
    currentParameters := params
    prevToolCallArr := s.prevToolCallArr.modify s.currentToolId.toNat fun call =>
      { call with arguments := some params } }

/-- `_parse_and_stream_parameters` -/
def parseAndStreamParameters (sets : SetOrder) : Except PyError (State lib × List ToolCallItem) :=
  let newParams := closedParameters lib s.buf
  if sameParams lib newParams s.currentParameters then .ok (s, [])
  else if s.currentParameters.isEmpty then
    (dumpsItems lib newParams).map fun items =>
      let jsonFragment := '{' :: joinItems items
      (s.storeParameters newParams).sendArguments jsonFragment jsonFragment
  else
    let added := newParameters lib sets newParams s.currentParameters
    if added.isEmpty then .ok (s.storeParameters newParams, [])
    else
      (dumpsItems lib added).map fun items =>
        let jsonFragment := [',', ' '] ++ joinItems items
        (s.storeParameters newParams).sendArguments jsonFragment
          (textAt s.streamedArgsForTool s.currentToolId.toNat ++ jsonFragment)

/-- The end of a call; the object is closed when a brace is open. -/
def finishCall (endPos : Nat) : State lib × List ToolCallItem :=
  let current := textAt s.streamedArgsForTool s.currentToolId.toNat
  let closed := if current.count '}' < current.count '{' then
      s.sendArguments ['}'] (current ++ ['}'])
    else (s, [])
  ({ closed.1.resetStreamingState with
      buf := s.buf.drop (endPos + eotToken.length)
      currentToolId := s.currentToolId + 1 },
    closed.2)

/-- The body of the loop, and whether it goes on. -/
def pass (sets : SetOrder) (tools : List Tool) :
    Except PyError (State lib × StreamingParseResult × Bool) :=
  if !s.inToolCall then
    match Text.find botToken s.buf with
    | none => .ok ({ s with buf := [] }, ⟨s.buf, []⟩, false)
    | some start => .ok (s.enterCall start, ⟨s.buf.take start, []⟩, true)
  else if !s.functionNameSent then
    match searchRest functionPattern s.buf with
    | none => .ok (s, .empty, false)
    | some (name, rest) =>
      let functionName := Text.strip name
      if isTool tools functionName then
        let sent := s.sendName functionName rest
        .ok (sent.1, ⟨[], sent.2⟩, true)
      else .ok ({ s.resetStreamingState with buf := [] }, ⟨s.buf, []⟩, false)
  else
    match s.parseAndStreamParameters sets with
    | .error e => .error e
    | .ok (s, calls) =>
      match Text.find eotToken s.buf with
      | none => .ok (s, ⟨[], calls⟩, false)
      | some endPos =>
        let finished := s.finishCall endPos
        .ok (finished.1, ⟨[], calls ++ finished.2⟩, true)

/-- `while True`; each pass that goes on takes something out of the buffer. -/
def loop (sets : SetOrder) (tools : List Tool) :
    Nat → State lib → Except PyError (State lib × StreamingParseResult)
  | 0, s => .ok (s, .empty)
  | fuel + 1, s =>
    match s.pass sets tools with
    | .error e => .error e
    | .ok (s, result, false) => .ok (s, result)
    | .ok (s, result, true) =>
      (loop sets tools fuel s).map fun later => (later.1, result.append later.2)

def parseStreamingIncrement (sets : SetOrder) (tools : List Tool) (newText : Text) :
    Except PyError (State lib × StreamingParseResult) :=
  loop sets tools ((s.buf ++ newText).length + 1) { s with buf := s.buf ++ newText }

/-! ### The loop comes to its end -/

variable {s' : State lib} {sets : SetOrder} {tools : List Tool} {result : StreamingParseResult}

theorem functionPattern_length {text name : Text} {length : Nat}
    (h : functionPattern text = some (name, length)) : 0 < length := by
  unfold functionPattern at h
  dsimp only at h
  split at h
  · obtain ⟨n, -, hn⟩ := Option.bind_eq_some_iff.mp h
    split at hn
    · cases hn
    · obtain ⟨-, rfl⟩ := Prod.mk.inj (Option.some.inj hn)
      exact Nat.add_pos_right _ (Nat.succ_pos n)
  · cases h

theorem searchRest_lt {text name rest : Text}
    (h : searchRest functionPattern text = some (name, rest)) : rest.length < text.length := by
  induction text with
  | nil => cases h
  | cons c text ih =>
    unfold searchRest at h
    split at h
    · rename_i name' length hfound
      obtain ⟨-, rfl⟩ := Prod.mk.inj (Option.some.inj h)
      have hpos := functionPattern_length hfound
      rw [List.length_drop, List.length_cons]
      omega
    · exact (ih h).trans (Nat.lt_succ_self _)

theorem parseAndStreamParameters_buf {calls : List ToolCallItem}
    (h : s.parseAndStreamParameters sets = .ok (s', calls)) : s'.buf = s.buf := by
  unfold parseAndStreamParameters at h
  dsimp only at h
  split_ifs at h
  · cases h
    rfl
  · obtain ⟨items, -, heq⟩ := map_eq_ok.mp h
    cases heq
    rfl
  · cases h
    rfl
  · obtain ⟨items, -, heq⟩ := map_eq_ok.mp h
    cases heq
    rfl

/-- What a pass can do, with its items and whether the loop goes on. -/
inductive Passes (sets : SetOrder) (s : State lib) : State lib → List ToolCallItem → Bool → Prop
  | text (hin : s.inToolCall = false) : Passes sets s { s with buf := [] } [] false
  | enter (start : Nat) (hin : s.inToolCall = false)
      (hstart : Text.find botToken s.buf = some start) :
      Passes sets s (s.enterCall start) [] true
  | wait : Passes sets s s [] false
  | unknown (hsent : s.functionNameSent = false) :
      Passes sets s { s.resetStreamingState with buf := [] } [] false
  | name (name functionName rest : Text) (hsent : s.functionNameSent = false)
      (hin : s.inToolCall = true) (hname : searchRest functionPattern s.buf = some (name, rest)) :
      Passes sets s (s.sendName functionName rest).1 (s.sendName functionName rest).2 true
  | parameters (mid : State lib) (calls : List ToolCallItem) (hsent : s.functionNameSent = true)
      (hparse : s.parseAndStreamParameters sets = .ok (mid, calls)) : Passes sets s mid calls false
  | finish (mid : State lib) (calls : List ToolCallItem) (endPos : Nat)
      (hsent : s.functionNameSent = true)
      (hparse : s.parseAndStreamParameters sets = .ok (mid, calls))
      (hend : Text.find eotToken mid.buf = some endPos) :
      Passes sets s (mid.finishCall endPos).1 (calls ++ (mid.finishCall endPos).2) true

theorem pass_cases {more : Bool} (h : s.pass sets tools = .ok (s', result, more)) :
    Passes sets s s' result.calls more := by
  unfold pass at h
  split at h
  · rename_i hin
    split at h
    · cases h
      exact .text (by simpa using hin)
    · rename_i start hstart
      cases h
      exact .enter start (by simpa using hin) hstart
  · rename_i hin
    split at h
    · rename_i hsent
      split at h
      · cases h
        exact .wait
      · rename_i name rest hname
        dsimp only at h
        split at h
        · cases h
          exact .name name _ rest (by simpa using hsent) (by simpa using hin) hname
        · cases h
          exact .unknown (by simpa using hsent)
    · rename_i hsent
      split at h
      · cases h
      · rename_i mid calls hparse
        dsimp only at h
        split at h
        · cases h
          exact .parameters _ calls (by simpa using hsent) hparse
        · rename_i endPos hend
          cases h
          exact .finish mid calls endPos (by simpa using hsent) hparse hend

/-- A pass that goes on has taken a tag out of the buffer. -/
theorem pass_shrinks (h : s.pass sets tools = .ok (s', result, true)) :
    s'.buf.length < s.buf.length := by
  have htag : ∀ {tag text : Text} {i : Nat}, tag ≠ [] → Text.find tag text = some i →
      (text.drop (i + tag.length)).length < text.length := by
    intro tag text i htag hfind
    have hle := Text.find_add_length_le hfind
    have hpos := List.length_pos_iff.mpr htag
    rw [List.length_drop]
    omega
  have hcases := pass_cases s h
  generalize result.calls = calls at hcases
  cases hcases with
  | enter start hin hstart => exact htag (by decide) hstart
  | name name functionName rest hsent hin hname => exact searchRest_lt hname
  | finish mid calls endPos hsent hparse hend =>
    have hbuf := parseAndStreamParameters_buf s hparse
    rw [← hbuf]
    exact htag (by decide) hend

/-- More rounds than the buffer has characters change nothing. -/
theorem loop_eq {fuel fuel' : Nat} (h : s.buf.length < fuel) (h' : s.buf.length < fuel') :
    loop sets tools fuel s = loop sets tools fuel' s := by
  induction fuel generalizing s fuel' with
  | zero => exact absurd h (Nat.not_lt_zero _)
  | succ fuel ih =>
    cases fuel' with
    | zero => exact absurd h' (Nat.not_lt_zero _)
    | succ fuel' =>
      unfold loop
      split
      · rfl
      · rfl
      · rename_i next result hpass
        have hlt := pass_shrinks s hpass
        have heq : loop sets tools fuel next = loop sets tools fuel' next :=
          ih next (by omega) (by omega)
        rw [heq]

/-! ### The items and the arrays -/

/-- Between two passes the arrays have an entry for each call so far, and the text of the
current one is empty up to its first parameter, which stays in the buffer. -/
structure Sound (s : State lib) : Prop where
  low : -1 ≤ s.currentToolId
  started : s.functionNameSent = true → 0 ≤ s.currentToolId
  inCall : s.functionNameSent = true → s.inToolCall = true
  blank : s.functionNameSent = false → s.currentParameters = []
  length : s.streamedArgsForTool.length = s.currentToolId.toNat + s.functionNameSent.toNat
  fresh : s.functionNameSent = true → s.currentParameters = [] →
    textAt s.streamedArgsForTool s.currentToolId.toNat = []
  seen : s.currentParameters ≠ [] → Text.finditer MiMo.paramRegex s.buf ≠ []

theorem sound_init : (init lib).Sound where
  low := Int.le_refl _
  started := fun h => by cases h
  inCall := fun h => by cases h
  blank := fun _ => rfl
  length := rfl
  fresh := fun h => by cases h
  seen := fun h => absurd rfl h

theorem setParam_ne_nil {V : Type} (params : List (Text × V)) (name : Text) (value : V) :
    setParam params name value ≠ [] := by
  unfold setParam
  split
  · rename_i hany
    cases params with
    | nil => cases hany
    | cons param rest => exact List.cons_ne_nil _ _
  · exact List.append_ne_nil_of_right_ne_nil _ (List.cons_ne_nil _ _)

theorem closedParameters_eq_nil {text : Text} :
    closedParameters lib text = [] ↔ Text.finditer MiMo.paramRegex text = [] := by
  unfold closedParameters
  constructor
  · intro h
    induction hfound : Text.finditer MiMo.paramRegex text using List.reverseRecOn with
    | nil => rfl
    | append_singleton front found _ =>
      rw [hfound, List.foldl_concat] at h
      exact absurd h (setParam_ne_nil _ _ _)
  · intro h
    rw [h]
    rfl

theorem Sound.receive (hsound : s.Sound) (newText : Text) :
    State.Sound { s with buf := s.buf ++ newText } where
  low := hsound.low
  started := hsound.started
  inCall := hsound.inCall
  blank := hsound.blank
  length := hsound.length
  fresh := hsound.fresh
  seen := fun h => Text.finditer_append (hsound.seen h) newText

variable {s}

/-- An item of the current call, and its text extended by the same arguments. -/
theorem accounts_arguments (hsound : s.Sound) (hsent : s.functionNameSent = true)
    (parameters : Text) :
    Accounts s.streamedArgsForTool
      (s.streamedArgsForTool.set s.currentToolId.toNat
        (textAt s.streamedArgsForTool s.currentToolId.toNat ++ parameters))
      [⟨s.currentToolId, none, parameters⟩] := by
  have hlength := hsound.length
  rw [hsent, Bool.toNat_true] at hlength
  have hid : (s.currentToolId.toNat : Int) = s.currentToolId :=
    Int.toNat_of_nonneg (hsound.started hsent)
  have hextend : ∀ i, i < s.streamedArgsForTool.length → Accounts s.streamedArgsForTool
      (s.streamedArgsForTool.set i (textAt s.streamedArgsForTool i ++ parameters))
      [⟨i, none, parameters⟩] := fun i hi => Accounts.extend hi none parameters
  have hown := hextend s.currentToolId.toNat (by omega)
  rw [hid] at hown
  exact hown

/-- Parameters that are stored, with the text of the call as it then is. -/
theorem Sound.store (hsound : s.Sound) (hsent : s.functionNameSent = true)
    {params : List (Text × lib.Val)} (hparams : params ≠ [])
    (hbuf : Text.finditer MiMo.paramRegex s.buf ≠ []) {texts : List Text}
    (htexts : texts.length = s.streamedArgsForTool.length) :
    State.Sound { s.storeParameters params with streamedArgsForTool := texts } where
  low := hsound.low
  started := hsound.started
  inCall := hsound.inCall
  blank := fun h => absurd (hsent.symm.trans h) (by decide)
  length := htexts.trans hsound.length
  fresh := fun _ hnil => absurd hnil hparams
  seen := fun _ => hbuf

theorem parameters_accounts {calls : List ToolCallItem} (hsound : s.Sound)
    (hsent : s.functionNameSent = true) (h : s.parseAndStreamParameters sets = .ok (s', calls)) :
    s'.Sound ∧ s'.functionNameSent = true ∧
      Accounts s.streamedArgsForTool s'.streamedArgsForTool calls := by
  have hbuf : closedParameters lib s.buf ≠ [] → Text.finditer MiMo.paramRegex s.buf ≠ [] :=
    fun hne hnil => hne (closedParameters_eq_nil.mpr hnil)
  have hclosed : Text.finditer MiMo.paramRegex s.buf ≠ [] → closedParameters lib s.buf ≠ [] :=
    fun hfound hnil => hfound (closedParameters_eq_nil.mp hnil)
  unfold parseAndStreamParameters at h
  dsimp only at h
  split_ifs at h with hsame hempty hadded
  · cases h
    exact ⟨hsound, hsent, Accounts.refl _⟩
  · obtain ⟨items, -, heq⟩ := map_eq_ok.mp h
    cases heq
    have hnil : s.currentParameters = [] := List.isEmpty_iff.mp hempty
    have hne : closedParameters lib s.buf ≠ [] := by
      intro hnone
      rw [hnone, hnil] at hsame
      exact hsame rfl
    refine ⟨hsound.store hsent hne (hbuf hne) (List.length_set ..), hsent, ?_⟩
    have haccounts := accounts_arguments hsound hsent ('{' :: joinItems items)
    rw [hsound.fresh hsent hnil] at haccounts
    exact haccounts
  · cases h
    have hfound := hsound.seen fun hnil => hempty (List.isEmpty_iff.mpr hnil)
    have hne := hclosed hfound
    exact ⟨hsound.store hsent hne hfound rfl, hsent, Accounts.refl _⟩
  · obtain ⟨items, -, heq⟩ := map_eq_ok.mp h
    cases heq
    have hfound := hsound.seen fun hnil => hempty (List.isEmpty_iff.mpr hnil)
    have hne := hclosed hfound
    exact ⟨hsound.store hsent hne hfound (List.length_set ..), hsent,
      accounts_arguments hsound hsent _⟩

theorem finish_accounts (hsound : s.Sound) (hsent : s.functionNameSent = true) (endPos : Nat) :
    (s.finishCall endPos).1.Sound ∧
      Accounts s.streamedArgsForTool (s.finishCall endPos).1.streamedArgsForTool
        (s.finishCall endPos).2 := by
  have hlength := hsound.length
  have hstarted := hsound.started hsent
  rw [hsent, Bool.toNat_true] at hlength
  have hclosed : ∀ texts : List Text, texts.length = s.streamedArgsForTool.length →
      State.Sound { s.resetStreamingState with
        buf := s.buf.drop (endPos + eotToken.length)
        currentToolId := s.currentToolId + 1
        streamedArgsForTool := texts } := by
    intro texts htexts
    refine ⟨?_, fun h => absurd h Bool.false_ne_true, fun h => absurd h Bool.false_ne_true,
      fun _ => rfl, ?_, fun h => absurd h Bool.false_ne_true, fun h => absurd rfl h⟩
    · dsimp only
      omega
    · dsimp only [resetStreamingState]
      rw [htexts, hlength, Bool.toNat_false]
      omega
  unfold finishCall
  dsimp only
  split
  · exact ⟨hclosed _ (List.length_set ..), accounts_arguments hsound hsent _⟩
  · exact ⟨hclosed _ rfl, Accounts.refl _⟩

theorem name_accounts (hsound : s.Sound) (hsent : s.functionNameSent = false)
    (hin : s.inToolCall = true) (functionName rest : Text) :
    (s.sendName functionName rest).1.Sound ∧
      Accounts s.streamedArgsForTool (s.sendName functionName rest).1.streamedArgsForTool
        (s.sendName functionName rest).2 := by
  have hlength := hsound.length
  have hlow := hsound.low
  rw [hsent, Bool.toNat_false, Nat.add_zero] at hlength
  have hid : ∃ id : Int, (if s.currentToolId = -1 then 0 else s.currentToolId) = id ∧ 0 ≤ id ∧
      id.toNat = s.currentToolId.toNat := by
    refine ⟨_, rfl, ?_⟩
    split
    · rename_i hfirst
      rw [hfirst]
      decide
    · omega
  obtain ⟨id, hid, hpos, hnat⟩ := hid
  unfold sendName
  dsimp only
  rw [hid]
  constructor
  · refine ⟨?_, fun _ => hpos, fun _ => hin, fun h => absurd h.symm Bool.false_ne_true, ?_, ?_, ?_⟩
    · dsimp only
      omega
    · dsimp only
      rw [Bool.toNat_true, List.length_append, List.length_replicate]
      omega
    · intro _ _
      dsimp only
      rw [textAt_append_replicate, textAt_of_le (by omega)]
    · exact fun h => absurd (hsound.blank hsent) h
  · intro i
    rw [textAt_append_replicate, itemsText_eq_nil, List.append_nil]
    intro item hitem _
    rw [List.mem_singleton.mp hitem]

theorem pass_accounts {more : Bool} (hsound : s.Sound)
    (h : s.pass sets tools = .ok (s', result, more)) :
    s'.Sound ∧ Accounts s.streamedArgsForTool s'.streamedArgsForTool result.calls := by
  have hcases := pass_cases s h
  generalize result.calls = calls at hcases
  have houtside : s.inToolCall = false → s.functionNameSent = false := by
    intro hin
    rw [Bool.eq_false_iff]
    intro hsent
    rw [hsound.inCall hsent] at hin
    cases hin
  have hnamed : s.functionNameSent = false → ∀ (buf : Text) (inToolCall : Bool),
      State.Sound { s with
        buf := buf
        inToolCall := inToolCall
        functionNameSent := false
        currentParameters := [] } := by
    intro hsent buf inToolCall
    have hlength := hsound.length
    rw [hsent] at hlength
    exact ⟨hsound.low, fun h => absurd h Bool.false_ne_true, fun h => absurd h Bool.false_ne_true,
      fun _ => rfl, hlength, fun h => absurd h Bool.false_ne_true, fun h => absurd rfl h⟩
  cases hcases with
  | text hin =>
    have hsent := houtside hin
    have hidle := hnamed hsent [] s.inToolCall
    rw [← hsound.blank hsent, ← hsent] at hidle
    exact ⟨hidle, Accounts.refl _⟩
  | enter start hin hstart => exact ⟨hnamed (houtside hin) _ true, Accounts.refl _⟩
  | wait => exact ⟨hsound, Accounts.refl _⟩
  | unknown hsent => exact ⟨hnamed hsent [] false, Accounts.refl _⟩
  | name name functionName rest hsent hin hname => exact name_accounts hsound hsent hin _ _
  | parameters mid calls hsent hparse =>
    obtain ⟨hmid, -, haccounts⟩ := parameters_accounts hsound hsent hparse
    exact ⟨hmid, haccounts⟩
  | finish mid calls endPos hsent hparse hend =>
    obtain ⟨hmid, hstill, haccounts⟩ := parameters_accounts hsound hsent hparse
    obtain ⟨hafter, hfinish⟩ := finish_accounts hmid hstill endPos
    exact ⟨hafter, haccounts.trans hfinish⟩

theorem loop_accounts {fuel : Nat} (hsound : s.Sound)
    (h : loop sets tools fuel s = .ok (s', result)) :
    s'.Sound ∧ Accounts s.streamedArgsForTool s'.streamedArgsForTool result.calls := by
  induction fuel generalizing s result with
  | zero =>
    cases h
    exact ⟨hsound, Accounts.refl _⟩
  | succ fuel ih =>
    unfold loop at h
    split at h
    · cases h
    · rename_i next shown hpass
      cases h
      exact pass_accounts hsound hpass
    · rename_i next shown hpass
      obtain ⟨⟨last, later⟩, hlater, heq⟩ := map_eq_ok.mp h
      cases heq
      obtain ⟨hnext, haccounts⟩ := pass_accounts hsound hpass
      obtain ⟨hlast, hrest⟩ := ih hnext hlater
      exact ⟨hlast, haccounts.trans hrest⟩

/-- The items of an increment are what it adds to the texts of the calls. -/
theorem increment_accounts {newText : Text} (hsound : s.Sound)
    (h : s.parseStreamingIncrement sets tools newText = .ok (s', result)) :
    s'.Sound ∧ Accounts s.streamedArgsForTool s'.streamedArgsForTool result.calls :=
  loop_accounts (s := { s with buf := s.buf ++ newText }) (hsound.receive s newText) h

end State

/-- `Qwen3CoderDetector` -/
def detector (lib : PyLib) (sets : SetOrder) : ServedDetector where
  State := State lib
  init := .init lib
  Arguments := List (Text × lib.Val)
  dumps := dumpsParams lib
  prevToolCallArr := fun s => s.prevToolCallArr.map PrevCall.arguments
  streamedArgsForTool := State.streamedArgsForTool
  parseStreamingIncrement := fun tools s newText => s.parseStreamingIncrement sets tools newText
  init_streamed := rfl

end SglJax.FunctionCall.Qwen3Coder
