import SglJax.Parsing.ReasoningParser

/-! How a stream of chunks is divided: as the whole text is, when no chunk makes the
detector drop text that it held back, cut a token or keep the start token. -/
namespace SglJax.Parsing.ReasoningDetector

open StreamingParseResult

/-! ### Dividing a whole text -/

section Divide

variable (d : ReasoningDetector)

/-- Reasoning is forced, or the text begins with the start token. -/
def reasons (text : Text) : Bool := d.forceReasoning || d.thinkStartToken.isPrefixOf text

/-- The text without a start token at its beginning. -/
def body (text : Text) : Text :=
  if d.thinkStartToken.isPrefixOf text then text.drop d.thinkStartToken.length else text

/-- The reasoning and the normal text. -/
def divide (text : Text) : Text × Text :=
  if d.reasons text then
    match Text.find d.thinkEndToken (d.body text) with
    | some endIdx =>
      ((d.body text).take endIdx, (d.body text).drop (endIdx + d.thinkEndToken.length))
    | none =>
      match d.findTool (d.body text) with
      | some toolIdx => ((d.body text).take toolIdx, (d.body text).drop toolIdx)
      | none => (d.body text, [])
  else ([], text)

/-- The tokens are not empty, and none lies in a proper part of another's beginning. -/
structure Apart : Prop where
  ne_nil : ∀ token ∈ d.tokensToCheck, token ≠ []
  apart : ∀ token ∈ d.tokensToCheck, ∀ other ∈ d.tokensToCheck, ∀ part, part <+: other →
    part ≠ other → ¬ token <:+: part

/-- The start token is at most at the beginning of the text, and no tool token is complete
before the end token. -/
structure Plain (text : Text) : Prop where
  start : ∀ before, before ++ d.thinkStartToken <+: text → before = []
  tool : d.thinkEndToken <:+: d.body text → ∀ token ∈ d.toolTokens, ∀ before,
    before <+: d.body text → token <:+: before → d.thinkEndToken <:+: before

end Divide

/-! ### What a chunk must not do -/

section Chunks

variable (d : ReasoningDetector)

/-- A chunk goes on with the reasoning. -/
structure Continues (s : ReasoningState) (chunk : Text) : Prop where
  free : d.isHeld (s.buffer ++ chunk) = false
  reasoning : (d.stripStart s (s.buffer ++ chunk)).1.inReasoning = true
  noEnd : Text.find d.thinkEndToken (d.stripStart s (s.buffer ++ chunk)).2 = none
  noTool : d.findTool (d.stripStart s (s.buffer ++ chunk)).2 = none

/-- A chunk with which the detector loses nothing. -/
structure Lossless (s : ReasoningState) (chunk rest : Text) : Prop where
  /-- Normal text is not emitted without what was held back. -/
  keeps : d.isHeld (s.buffer ++ chunk) = false →
    (d.stripStart s (s.buffer ++ chunk)).1.inReasoning = false → s.buffer = []
  /-- Reasoning is not emitted up to the middle of a token. -/
  whole : d.Continues s chunk → d.streamReasoning = true →
    ∀ token ∈ d.thinkEndToken :: d.toolTokens,
      ¬ Text.Straddles token (d.stripStart s (s.buffer ++ chunk)).2 rest
  /-- A start token is not left in the buffer. -/
  strips : d.Continues s chunk → d.streamReasoning = false → d.strips s (s.buffer ++ chunk) = false

/-- No chunk of a run loses anything. -/
def LosslessRun : ReasoningState → List Text → Prop
  | _, [] => True
  | s, chunk :: rest =>
    d.Lossless s chunk rest.flatten ∧ LosslessRun (d.parseStreamingIncrement s chunk).1 rest

end Chunks

/-! ### The state between chunks -/

variable {d : ReasoningDetector} {s : ReasoningState} {text rest reasoned answered : Text}

theorem isHeld_eq_true_iff {current : Text} :
    d.isHeld current = true ↔ ∃ token ∈ d.tokensToCheck, current <+: token ∧ current ≠ token := by
  unfold isHeld
  simp only [List.any_eq_true, Bool.and_eq_true, List.isPrefixOf_iff_prefix, bne_iff_ne, ne_eq]
  constructor
  · rintro ⟨token, hmem, hstands, hne⟩
    exact ⟨token, hmem, hstands, fun h => hne h.symm⟩
  · rintro ⟨token, hmem, hstands, hne⟩
    exact ⟨token, hmem, hstands, fun h => hne h.symm⟩

/-- A text that contains no token. -/
def Quiet (d : ReasoningDetector) (text : Text) : Prop :=
  ∀ token ∈ d.tokensToCheck, ¬ token <:+: text

theorem Apart.quiet_of_isHeld (h : d.Apart) {current : Text} (hheld : d.isHeld current = true) :
    d.Quiet current := by
  obtain ⟨other, hother, hstands, hne⟩ := isHeld_eq_true_iff.mp hheld
  exact fun token htoken => h.apart token htoken other hother current hstands hne

theorem Apart.quiet_nil (h : d.Apart) : d.Quiet [] :=
  fun token htoken hinside => h.ne_nil token htoken (List.infix_nil.mp hinside)

theorem findTool_eq_none_iff {current : Text} :
    d.findTool current = none ↔ ∀ token ∈ d.toolTokens, ¬ token <:+: current := by
  unfold findTool toolTokens
  cases d.toolStartToken with
  | none => simp
  | some token =>
    by_cases hne : token = []
    · simp [hne]
    · simp [hne, Text.find_eq_none_iff]

theorem mem_tokensToCheck {token : Text} (h : token ∈ d.thinkEndToken :: d.toolTokens) :
    token ∈ d.tokensToCheck := List.mem_cons_of_mem _ h

section FindTool

variable {before after : Text} {i : Nat}

theorem findTool_append_left (h : ∀ token ∈ d.toolTokens, Text.NoneWithin token before after) :
    d.findTool (before ++ after) = (d.findTool after).map (· + before.length) := by
  unfold findTool
  cases htokens : d.toolTokens with
  | nil => rfl
  | cons token rest =>
    rw [htokens] at h
    exact Text.find_append_left (h token List.mem_cons_self)

theorem findTool_append_right (h : d.findTool before = some i) (more : Text) :
    d.findTool (before ++ more) = some i := by
  unfold findTool at h ⊢
  cases htokens : d.toolTokens with
  | nil =>
    rw [htokens] at h
    cases h
  | cons token rest =>
    rw [htokens] at h
    exact Text.find_append_right h more

theorem findTool_le_length (h : d.findTool before = some i) : i ≤ before.length := by
  obtain ⟨token, _, hfind⟩ := Option.bind_eq_some_iff.mp h
  exact Text.find_le_length hfind

theorem exists_tool_of_findTool (h : d.findTool before = some i) :
    ∃ token ∈ d.toolTokens, token <:+: before := by
  obtain ⟨token, htoken, hfind⟩ := Option.bind_eq_some_iff.mp h
  refine ⟨token, List.mem_of_mem_head? htoken, ?_⟩
  by_contra hno
  rw [Text.find_eq_none_iff.mpr hno] at hfind
  cases hfind

end FindTool

/-! ### Dividing at a token -/

section DivideAt

variable {current : Text} {i : Nat}

theorem divide_of_end (hreasons : d.reasons text = true)
    (hbody : d.body text = reasoned ++ (current ++ rest))
    (hwhole : Text.NoneWithin d.thinkEndToken reasoned (current ++ rest))
    (hend : Text.find d.thinkEndToken current = some i) :
    d.divide text =
      (reasoned ++ current.take i, current.drop (i + d.thinkEndToken.length) ++ rest) := by
  have hlength := Text.find_add_length_le hend
  have hfind : Text.find d.thinkEndToken (d.body text) = some (i + reasoned.length) := by
    rw [hbody, Text.find_append_left hwhole, Text.find_append_right hend]
    rfl
  unfold divide
  rw [if_pos hreasons, hfind, hbody]
  dsimp only
  have hplace : i + reasoned.length + d.thinkEndToken.length =
      reasoned.length + (i + d.thinkEndToken.length) := by omega
  rw [hplace, Nat.add_comm i, List.take_length_add_append, List.drop_length_add_append,
    List.take_append_of_le_length (by omega), List.drop_append_of_le_length hlength]

/-- The end token is not in the text where no chunk has found it. -/
theorem find_end_eq_none (hplain : d.Plain text) (hbody : d.body text = reasoned ++ (current ++ rest))
    (hwhole : Text.NoneWithin d.thinkEndToken reasoned (current ++ rest))
    (hend : Text.find d.thinkEndToken current = none) (htool : d.findTool current = some i) :
    Text.find d.thinkEndToken (d.body text) = none := by
  rw [Text.find_eq_none_iff]
  intro hinside
  obtain ⟨token, htoken, hin⟩ := exists_tool_of_findTool htool
  have hpart : reasoned ++ current <+: d.body text := by
    rw [hbody, ← List.append_assoc]
    exact List.prefix_append _ _
  have hseen := hplain.tool hinside token htoken (reasoned ++ current) hpart
    (hin.trans (List.suffix_append _ _).isInfix)
  apply Text.find_eq_none_iff.mp _ hseen
  rw [Text.find_append_left hwhole.of_append, hend]
  rfl

theorem divide_of_tool (hplain : d.Plain text) (hreasons : d.reasons text = true)
    (hbody : d.body text = reasoned ++ (current ++ rest))
    (hwhole : ∀ token ∈ d.thinkEndToken :: d.toolTokens,
      Text.NoneWithin token reasoned (current ++ rest))
    (hend : Text.find d.thinkEndToken current = none) (htool : d.findTool current = some i) :
    d.divide text = (reasoned ++ current.take i, current.drop i ++ rest) := by
  have hnone := find_end_eq_none hplain hbody (hwhole _ List.mem_cons_self) hend htool
  have hlength := findTool_le_length htool
  have hfind : d.findTool (d.body text) = some (i + reasoned.length) := by
    rw [hbody, findTool_append_left fun token h => hwhole token (List.mem_cons_of_mem _ h),
      findTool_append_right htool]
    rfl
  unfold divide
  rw [if_pos hreasons, hnone]
  dsimp only
  rw [hfind, hbody]
  dsimp only
  rw [Nat.add_comm i, List.take_length_add_append, List.drop_length_add_append,
    List.take_append_of_le_length hlength, List.drop_append_of_le_length hlength]

end DivideAt

/-- No token has been seen, and nothing has been emitted. -/
structure Opening (d : ReasoningDetector) (text rest reasoned answered : Text)
    (s : ReasoningState) : Prop where
  stripped : s.strippedThinkStart = false
  mode : s.inReasoning = d.forceReasoning
  quiet : d.Quiet s.buffer
  reasoned : reasoned = []
  answered : answered = []
  text : text = s.buffer ++ rest

/-- The text is in its reasoning, of which a part has been emitted. -/
structure Reasoning (d : ReasoningDetector) (text rest reasoned answered : Text)
    (s : ReasoningState) : Prop where
  mode : s.inReasoning = true
  reasons : d.reasons text = true
  stripped : s.strippedThinkStart = false → ¬ d.thinkStartToken <+: text
  quiet : ∀ token ∈ d.thinkEndToken :: d.toolTokens, ¬ token <:+: s.buffer
  answered : answered = []
  body : d.body text = reasoned ++ (s.buffer ++ rest)
  whole : ∀ token ∈ d.thinkEndToken :: d.toolTokens,
    Text.NoneWithin token reasoned (s.buffer ++ rest)

/-- The text is behind its reasoning, which may have been stripped of spaces. -/
structure Answering (d : ReasoningDetector) (text rest reasoned answered : Text)
    (s : ReasoningState) : Prop where
  mode : s.inReasoning = false
  stripped : s.strippedThinkStart = false → ¬ d.thinkStartToken <+: text
  divided : ∃ spaces, (∀ c ∈ spaces, Text.isSpace c = true) ∧
    d.divide text = (reasoned ++ spaces, answered ++ (s.buffer ++ rest))

/-- The detector after some chunks, with what it has emitted and what is to come. -/
def Invariant (d : ReasoningDetector) (text rest reasoned answered : Text)
    (s : ReasoningState) : Prop :=
  Opening d text rest reasoned answered s ∨ Reasoning d text rest reasoned answered s ∨
    Answering d text rest reasoned answered s

/-! ### One chunk -/

section Step

variable {current : Text}

/-- A text without reasoning does not contain the start token. -/
theorem Plain.not_infix (h : d.Plain text) (hstart : ¬ d.thinkStartToken <+: text)
    (hcurrent : current <:+: text) : ¬ d.thinkStartToken <:+: current := by
  intro hinside
  obtain ⟨before, after, happend⟩ := hinside.trans hcurrent
  have hfirst := h.start before ⟨after, happend⟩
  rw [hfirst, List.nil_append] at happend
  exact hstart ⟨after, happend⟩

/-- From the text of a chunk on, without the start token. -/
theorem parseReasoning_spec (hapart : d.Apart) (hplain : d.Plain text)
    (hmode : s.inReasoning = true) (hreasons : d.reasons text = true)
    (hstripped : s.strippedThinkStart = false → ¬ d.thinkStartToken <+: text)
    (hbody : d.body text = reasoned ++ (current ++ rest))
    (hwhole : ∀ token ∈ d.thinkEndToken :: d.toolTokens,
      Text.NoneWithin token reasoned (current ++ rest))
    (hcut : Text.find d.thinkEndToken current = none → d.findTool current = none →
      d.streamReasoning = true → ∀ token ∈ d.thinkEndToken :: d.toolTokens,
        ¬ Text.Straddles token current rest)
    (hbuffer : Text.find d.thinkEndToken current = none → d.findTool current = none →
      d.streamReasoning = false → s.buffer = current) :
    Invariant d text rest (reasoned ++ (d.parseReasoning s current).2.reasoningText)
      (d.parseReasoning s current).2.normalText (d.parseReasoning s current).1 := by
  unfold parseReasoning
  cases hend : Text.find d.thinkEndToken current with
  | some endIdx =>
    dsimp only
    obtain ⟨spaces, hspaces, hrstrip⟩ := Text.exists_rstrip (current.take endIdx)
    refine .inr (.inr ⟨rfl, hstripped, spaces, hspaces, ?_⟩)
    rw [divide_of_end hreasons hbody (hwhole _ List.mem_cons_self) hend, List.append_assoc,
      hrstrip]
    rfl
  | none =>
    dsimp only
    cases htool : d.findTool current with
    | some toolIdx =>
      dsimp only
      refine .inr (.inr ⟨rfl, hstripped, [], fun c hc => absurd hc List.not_mem_nil, ?_⟩)
      rw [divide_of_tool hplain hreasons hbody hwhole hend htool, List.append_nil]
      rfl
    | none =>
      dsimp only
      have hquiet : ∀ token ∈ d.thinkEndToken :: d.toolTokens, ¬ token <:+: current := by
        intro token htoken
        rcases List.mem_cons.mp htoken with rfl | hmem
        · exact Text.find_eq_none_iff.mp hend
        · exact findTool_eq_none_iff.mp htool token hmem
      split
      · rename_i hstream
        refine .inr (.inl ⟨hmode, hreasons, hstripped,
          fun token h => hapart.quiet_nil token (mem_tokensToCheck h), rfl, ?_, ?_⟩)
        · rw [hbody, List.append_assoc]
          rfl
        · intro token htoken
          exact (hwhole token htoken).append (Text.find_eq_none_iff.mpr (hquiet token htoken))
            (hcut hend htool hstream token htoken)
      · rename_i hstream
        have hsame := hbuffer hend htool (Bool.eq_false_iff.mpr hstream)
        dsimp only
        rw [List.append_nil]
        refine .inr (.inl ⟨hmode, hreasons, hstripped, ?_, rfl, ?_, ?_⟩)
        · rw [hsame]
          exact hquiet
        · rw [hsame]
          exact hbody
        · rw [hsame]
          exact hwhole

/-- The start token is found in a text that begins with it. -/
theorem Plain.starts (hapart : d.Apart) (h : d.Plain text) (htext : text = current ++ rest)
    (hinside : d.thinkStartToken <:+: current) :
    ∃ after, current = d.thinkStartToken ++ after ∧ ¬ d.thinkStartToken <:+: after := by
  obtain ⟨before, after, happend⟩ := hinside
  have hprefix : before ++ d.thinkStartToken <+: text := by
    rw [htext, ← happend, List.append_assoc (before ++ _)]
    exact List.prefix_append _ _
  have hfirst := h.start before hprefix
  rw [hfirst, List.nil_append] at happend
  refine ⟨after, happend.symm, ?_⟩
  rintro ⟨before', after', happend'⟩
  have hsecond := h.start (d.thinkStartToken ++ before') (by
    rw [htext, ← happend, ← happend']
    exact ⟨after' ++ rest, by simp only [List.append_assoc]⟩)
  exact hapart.ne_nil _ List.mem_cons_self (List.append_eq_nil_iff.mp hsecond).1

/-- A text that is neither held back nor contains the start token does not begin with it. -/
theorem not_start_of_free (htext : text = current ++ rest) (hfree : ¬ d.isHeld current = true)
    (hinside : ¬ d.thinkStartToken <:+: current) : ¬ d.thinkStartToken <+: text := by
  intro hstart
  have hcurrent : current <+: text := by
    rw [htext]
    exact List.prefix_append _ _
  rcases List.prefix_or_prefix_of_prefix hstart hcurrent with hshort | hlong
  · exact hinside hshort.isInfix
  · apply hfree
    rw [isHeld_eq_true_iff]
    refine ⟨_, List.mem_cons_self, hlong, ?_⟩
    rintro rfl
    exact hinside (List.infix_refl _)

theorem body_of_start {after : Text} (h : text = d.thinkStartToken ++ after) :
    d.body text = after := by
  unfold body
  rw [h, if_pos (List.isPrefixOf_iff_prefix.mpr (List.prefix_append _ _)), List.drop_left]

theorem body_of_not_start (h : ¬ d.thinkStartToken <+: text) : d.body text = text :=
  if_neg (by rwa [List.isPrefixOf_iff_prefix])

theorem reasons_of_not_start (h : ¬ d.thinkStartToken <+: text) :
    d.reasons text = d.forceReasoning := by
  unfold reasons
  rw [← List.isPrefixOf_iff_prefix, Bool.not_eq_true] at h
  rw [h, Bool.or_false]

theorem stripStart_of_strips (h : d.strips s current = true) :
    d.stripStart s current =
      (⟨true, current, true⟩, Text.remove d.thinkStartToken current) := if_pos h

theorem stripStart_of_not_strips (h : ¬ d.strips s current = true) :
    d.stripStart s current = ({ s with buffer := current }, current) := if_neg h

theorem Opening.step (hapart : d.Apart) (hplain : d.Plain text) {chunk : Text}
    (h : Opening d text (chunk ++ rest) reasoned answered s) (hchunk : d.Lossless s chunk rest) :
    Invariant d text rest
      (reasoned ++ (d.parseStreamingIncrement s chunk).2.reasoningText)
      (answered ++ (d.parseStreamingIncrement s chunk).2.normalText)
      (d.parseStreamingIncrement s chunk).1 := by
  have htext : text = (s.buffer ++ chunk) ++ rest := by rw [h.text, List.append_assoc]
  rw [h.reasoned, h.answered, List.nil_append]
  unfold parseStreamingIncrement
  dsimp only
  by_cases hheld : d.isHeld (s.buffer ++ chunk) = true
  · rw [if_pos hheld]
    exact .inl ⟨h.stripped, h.mode, hapart.quiet_of_isHeld hheld, rfl, rfl, htext⟩
  rw [if_neg hheld]
  have hfree := Bool.eq_false_iff.mpr hheld
  by_cases hstrips : d.strips s (s.buffer ++ chunk) = true
  · -- the text begins with the start token
    have hinside : d.thinkStartToken <:+: s.buffer ++ chunk := by
      unfold strips at hstrips
      by_contra hno
      rw [Text.find_eq_none_iff.mpr hno] at hstrips
      simp at hstrips
    obtain ⟨after, hafter, hno⟩ := hplain.starts hapart htext hinside
    have hremove : Text.remove d.thinkStartToken (s.buffer ++ chunk) = after := by
      rw [hafter, Text.remove_append (hapart.ne_nil _ List.mem_cons_self) hno]
    have hstart : text = d.thinkStartToken ++ (after ++ rest) := by
      rw [htext, hafter, List.append_assoc]
    have hreasons : d.reasons text = true := by
      unfold reasons
      rw [hstart, List.isPrefixOf_iff_prefix.mpr (List.prefix_append _ _), Bool.or_true]
    have hstrip := stripStart_of_strips hstrips
    rw [hremove] at hstrip
    have hgoes : Text.find d.thinkEndToken after = none → d.findTool after = none →
        d.Continues s chunk := by
      intro hend htool
      refine ⟨hfree, ?_, ?_, ?_⟩
      · rw [hstrip]
      · rw [hstrip]
        exact hend
      · rw [hstrip]
        exact htool
    have hspec := @parseReasoning_spec d ⟨true, s.buffer ++ chunk, true⟩ text rest [] after hapart
      hplain rfl hreasons (fun hfalse => by cases hfalse) (body_of_start hstart)
      (fun token _ => Text.noneWithin_nil token _)
      (fun hend htool hstream => by
        have hwhole := hchunk.whole (hgoes hend htool) hstream
        rw [hstrip] at hwhole
        exact hwhole)
      (fun hend htool hstream => by
        have hkept := hchunk.strips (hgoes hend htool) hstream
        rw [hstrips] at hkept
        cases hkept)
    rw [hstrip, if_pos rfl]
    exact hspec
  · -- it does not
    have hinside : ¬ d.thinkStartToken <:+: s.buffer ++ chunk := by
      intro hin
      apply hstrips
      unfold strips
      rw [h.stripped]
      cases hfind : Text.find d.thinkStartToken (s.buffer ++ chunk) with
      | some i => rfl
      | none => exact absurd hin (Text.find_eq_none_iff.mp hfind)
    have hstart := not_start_of_free htext hheld hinside
    have hstrip := stripStart_of_not_strips hstrips
    have hreasons := reasons_of_not_start hstart
    have hbody := body_of_not_start hstart
    rw [hstrip]
    dsimp only
    by_cases hforce : d.forceReasoning = true
    · rw [if_pos (h.mode.trans hforce)]
      have hgoes : Text.find d.thinkEndToken (s.buffer ++ chunk) = none →
          d.findTool (s.buffer ++ chunk) = none → d.Continues s chunk := by
        intro hend htool
        refine ⟨hfree, ?_, ?_, ?_⟩
        · rw [hstrip]
          exact h.mode.trans hforce
        · rw [hstrip]
          exact hend
        · rw [hstrip]
          exact htool
      exact @parseReasoning_spec d { s with buffer := s.buffer ++ chunk } text rest []
        (s.buffer ++ chunk) hapart hplain (h.mode.trans hforce) (hreasons.trans hforce)
        (fun _ => hstart) (hbody.trans htext) (fun token _ => Text.noneWithin_nil token _)
        (fun hend htool hstream => by
          have hwhole := hchunk.whole (hgoes hend htool) hstream
          rw [hstrip] at hwhole
          exact hwhole)
        (fun _ _ _ => rfl)
    · -- a text without reasoning
      have hnot := Bool.eq_false_iff.mpr hforce
      rw [if_neg (Bool.eq_false_iff.mp (h.mode.trans hnot))]
      have hbuffer : s.buffer = [] := hchunk.keeps hfree (by
        rw [hstrip]
        exact h.mode.trans hnot)
      refine .inr (.inr ⟨h.mode.trans hnot, fun _ => hstart, [],
        fun c hc => absurd hc List.not_mem_nil, ?_⟩)
      unfold divide
      rw [hreasons, if_neg hforce, htext, hbuffer]
      rfl

/-- Text behind the reasoning does not contain the start token. -/
theorem stripStart_of_later (hplain : d.Plain text)
    (hstripped : s.strippedThinkStart = false → ¬ d.thinkStartToken <+: text)
    (hcurrent : current <:+: text) :
    d.stripStart s current = ({ s with buffer := current }, current) := by
  apply stripStart_of_not_strips
  unfold strips
  cases hflag : s.strippedThinkStart with
  | true => simp
  | false =>
    rw [Text.find_eq_none_iff.mpr (hplain.not_infix (hstripped hflag) hcurrent)]
    simp

theorem body_suffix (d : ReasoningDetector) (text : Text) : d.body text <:+ text := by
  unfold body
  split
  · exact List.drop_suffix _ _
  · exact List.suffix_refl _

theorem Reasoning.step (hapart : d.Apart) (hplain : d.Plain text) {chunk : Text}
    (h : Reasoning d text (chunk ++ rest) reasoned answered s) (hchunk : d.Lossless s chunk rest) :
    Invariant d text rest
      (reasoned ++ (d.parseStreamingIncrement s chunk).2.reasoningText)
      (answered ++ (d.parseStreamingIncrement s chunk).2.normalText)
      (d.parseStreamingIncrement s chunk).1 := by
  have hbody : d.body text = reasoned ++ ((s.buffer ++ chunk) ++ rest) := by
    rw [h.body, List.append_assoc]
  have hwhole : ∀ token ∈ d.thinkEndToken :: d.toolTokens,
      Text.NoneWithin token reasoned ((s.buffer ++ chunk) ++ rest) := by
    intro token htoken
    rw [List.append_assoc]
    exact h.whole token htoken
  rw [h.answered, List.nil_append]
  unfold parseStreamingIncrement
  dsimp only
  by_cases hheld : d.isHeld (s.buffer ++ chunk) = true
  · rw [if_pos hheld]
    dsimp only
    rw [List.append_nil]
    exact .inr (.inl ⟨h.mode, h.reasons, h.stripped,
      fun token htoken => hapart.quiet_of_isHeld hheld token (mem_tokensToCheck htoken), rfl,
      hbody, hwhole⟩)
  rw [if_neg hheld]
  have hfree := Bool.eq_false_iff.mpr hheld
  have hcurrent : s.buffer ++ chunk <:+: text := by
    refine List.IsInfix.trans ⟨reasoned, rest, ?_⟩ (body_suffix d text).isInfix
    rw [hbody, List.append_assoc]
  have hstrip := stripStart_of_later hplain h.stripped hcurrent
  rw [hstrip, if_pos h.mode]
  have hgoes : Text.find d.thinkEndToken (s.buffer ++ chunk) = none →
      d.findTool (s.buffer ++ chunk) = none → d.Continues s chunk := by
    intro hend htool
    refine ⟨hfree, ?_, ?_, ?_⟩
    · rw [hstrip]
      exact h.mode
    · rw [hstrip]
      exact hend
    · rw [hstrip]
      exact htool
  refine parseReasoning_spec hapart hplain h.mode h.reasons h.stripped hbody hwhole ?_
    (fun _ _ _ => rfl)
  intro hend htool hstream
  have hcut := hchunk.whole (hgoes hend htool) hstream
  rw [hstrip] at hcut
  exact hcut

theorem Answering.step (hplain : d.Plain text) {chunk : Text}
    (h : Answering d text (chunk ++ rest) reasoned answered s) (hchunk : d.Lossless s chunk rest)
    (hcurrent : s.buffer ++ chunk <:+: text) :
    Invariant d text rest
      (reasoned ++ (d.parseStreamingIncrement s chunk).2.reasoningText)
      (answered ++ (d.parseStreamingIncrement s chunk).2.normalText)
      (d.parseStreamingIncrement s chunk).1 := by
  obtain ⟨spaces, hspaces, hdivided⟩ := h.divided
  unfold parseStreamingIncrement
  dsimp only
  by_cases hheld : d.isHeld (s.buffer ++ chunk) = true
  · rw [if_pos hheld]
    dsimp only
    rw [List.append_nil, List.append_nil]
    refine .inr (.inr ⟨h.mode, h.stripped, spaces, hspaces, ?_⟩)
    rw [hdivided, List.append_assoc]
  rw [if_neg hheld]
  have hstrip := stripStart_of_later hplain h.stripped hcurrent
  have hbuffer : s.buffer = [] := hchunk.keeps (Bool.eq_false_iff.mpr hheld) (by
    rw [hstrip]
    exact h.mode)
  rw [hstrip, if_neg (Bool.eq_false_iff.mp h.mode)]
  dsimp only
  refine .inr (.inr ⟨h.mode, h.stripped, spaces, hspaces, ?_⟩)
  rw [hdivided, hbuffer, List.append_nil, List.nil_append, List.nil_append, List.append_assoc]

theorem divide_suffix (d : ReasoningDetector) (text : Text) : (d.divide text).2 <:+ text := by
  have hbody := body_suffix d text
  unfold divide
  split
  · split
    · exact (List.drop_suffix _ _).trans hbody
    · split
      · exact (List.drop_suffix _ _).trans hbody
      · exact List.nil_suffix
  · exact List.suffix_refl _

theorem Invariant.step (hapart : d.Apart) (hplain : d.Plain text) {chunk : Text}
    (h : Invariant d text (chunk ++ rest) reasoned answered s) (hchunk : d.Lossless s chunk rest) :
    Invariant d text rest
      (reasoned ++ (d.parseStreamingIncrement s chunk).2.reasoningText)
      (answered ++ (d.parseStreamingIncrement s chunk).2.normalText)
      (d.parseStreamingIncrement s chunk).1 := by
  rcases h with hopening | hreasoning | hanswering
  · exact hopening.step hapart hplain hchunk
  · exact hreasoning.step hapart hplain hchunk
  · refine hanswering.step hplain hchunk ?_
    obtain ⟨spaces, _, hdivided⟩ := hanswering.divided
    have hsuffix := divide_suffix d text
    rw [hdivided] at hsuffix
    refine List.IsInfix.trans ⟨answered, rest, ?_⟩ hsuffix.isInfix
    simp only [List.append_assoc]

/-- Once there is normal text, no more reasoning is emitted. -/
theorem Invariant.in_order (hplain : d.Plain text) {chunk : Text}
    (h : Invariant d text (chunk ++ rest) reasoned answered s) :
    answered = [] ∨ (d.parseStreamingIncrement s chunk).2.reasoningText = [] := by
  rcases h with hopening | hreasoning | hanswering
  · exact .inl hopening.answered
  · exact .inl hreasoning.answered
  · right
    obtain ⟨spaces, _, hdivided⟩ := hanswering.divided
    have hsuffix := divide_suffix d text
    rw [hdivided] at hsuffix
    have hcurrent : s.buffer ++ chunk <:+: text := by
      refine List.IsInfix.trans ⟨answered, rest, ?_⟩ hsuffix.isInfix
      simp only [List.append_assoc]
    unfold parseStreamingIncrement
    dsimp only
    split
    · rfl
    · rw [stripStart_of_later hplain hanswering.stripped hcurrent,
        if_neg (Bool.eq_false_iff.mp hanswering.mode)]

end Step

/-! ### All chunks -/

theorem invariant_init (hapart : d.Apart) (text : Text) : Invariant d text text [] [] d.init :=
  .inl ⟨rfl, rfl, hapart.quiet_nil, rfl, rfl, rfl⟩

theorem Invariant.parseStream (hapart : d.Apart) (hplain : d.Plain text) {chunks : List Text}
    (h : Invariant d text chunks.flatten reasoned answered s) (hrun : d.LosslessRun s chunks) :
    Invariant d text [] (reasoned ++ reasoning (d.parseStream s chunks).2)
      (answered ++ normal (d.parseStream s chunks).2) (d.parseStream s chunks).1 ∧
    (reasoned ++ answered) ++ emitted (d.parseStream s chunks).2 =
      (reasoned ++ reasoning (d.parseStream s chunks).2) ++
        (answered ++ normal (d.parseStream s chunks).2) := by
  induction chunks generalizing s reasoned answered with
  | nil =>
    have hnil : d.parseStream s [] = (s, []) := rfl
    rw [hnil]
    unfold reasoning normal emitted
    simp only [List.flatMap_nil, List.append_nil]
    exact ⟨h, trivial⟩
  | cons chunk rest ih =>
    rw [List.flatten_cons] at h
    have horder := h.in_order hplain
    obtain ⟨hlater, hemitted⟩ := ih (h.step hapart hplain hrun.1) hrun.2
    unfold ReasoningDetector.parseStream
    unfold reasoning normal at hlater
    unfold reasoning normal emitted at hemitted
    unfold reasoning normal emitted
    dsimp only
    simp only [List.flatMap_cons, ← List.append_assoc] at hlater hemitted ⊢
    refine ⟨hlater, ?_⟩
    rw [← hemitted]
    rcases horder with hnone | hnone
    · simp only [hnone, List.append_nil]
    · simp only [hnone, List.append_nil]

theorem divide_parts (d : ReasoningDetector) (text : Text) :
    text = (if d.thinkStartToken <+: text then d.thinkStartToken else []) ++ (d.divide text).1 ++
      (if d.reasons text = true ∧ d.thinkEndToken <:+: d.body text then d.thinkEndToken else []) ++
        (d.divide text).2 := by
  have hstart : text =
      (if d.thinkStartToken <+: text then d.thinkStartToken else []) ++ d.body text := by
    by_cases h : d.thinkStartToken <+: text
    · obtain ⟨after, rfl⟩ := h
      rw [if_pos (List.prefix_append _ _), body_of_start rfl]
    · rw [if_neg h, body_of_not_start h]
      rfl
  by_cases hreasons : d.reasons text = true
  · generalize (if d.thinkStartToken <+: text then d.thinkStartToken else []) = start at hstart ⊢
    unfold divide
    rw [if_pos hreasons]
    cases hend : Text.find d.thinkEndToken (d.body text) with
    | some endIdx =>
      have hin : d.thinkEndToken <:+: d.body text := by
        by_contra hno
        rw [Text.find_eq_none_iff.mpr hno] at hend
        cases hend
      obtain ⟨after, hafter⟩ := Text.prefix_of_find hend
      rw [if_pos ⟨hreasons, hin⟩]
      dsimp only
      rw [← List.drop_drop, ← hafter, List.drop_left, List.append_assoc, List.append_assoc, hafter,
        List.take_append_drop]
      exact hstart
    | none =>
      rw [if_neg fun h => Text.find_eq_none_iff.mp hend h.2]
      dsimp only
      cases d.findTool (d.body text) with
      | some toolIdx =>
        dsimp only
        rw [List.append_nil, List.append_assoc, List.take_append_drop]
        exact hstart
      | none =>
        dsimp only
        rw [List.append_nil, List.append_nil]
        exact hstart
  · have hno : ¬ d.thinkStartToken <+: text := by
      intro h
      apply hreasons
      unfold reasons
      rw [List.isPrefixOf_iff_prefix.mpr h, Bool.or_true]
    unfold divide
    rw [if_neg hreasons, if_neg hno, if_neg fun h => hreasons h.1]
    rfl

/-- What the detector has made of a text. -/
structure Divided (d : ReasoningDetector) (text : Text) (s : ReasoningState)
    (results : List StreamingParseResult) : Prop where
  /-- The text is its two parts, a start token at the beginning and the end token of the
  reasoning. -/
  parts : text = (if d.thinkStartToken <+: text then d.thinkStartToken else []) ++
    (d.divide text).1 ++
      (if d.reasons text = true ∧ d.thinkEndToken <:+: d.body text then d.thinkEndToken else []) ++
        (d.divide text).2
  /-- All reasoning is emitted in front of all normal text. -/
  ordered : emitted results = reasoning results ++ normal results
  open_ : s.inReasoning = true →
    normal results = [] ∧ d.divide text = (reasoning results ++ s.buffer, [])
  closed : s.inReasoning = false → ∃ spaces, (∀ c ∈ spaces, Text.isSpace c = true) ∧
    d.divide text = (reasoning results ++ spaces, normal results ++ s.buffer)

theorem divide_of_quiet (hreasons : d.reasons text = true)
    (hquiet : ∀ token ∈ d.thinkEndToken :: d.toolTokens, ¬ token <:+: s.buffer)
    (hbody : d.body text = reasoned ++ s.buffer)
    (hwhole : ∀ token ∈ d.thinkEndToken :: d.toolTokens,
      Text.NoneWithin token reasoned s.buffer) :
    d.divide text = (reasoned ++ s.buffer, []) := by
  have hend : Text.find d.thinkEndToken (d.body text) = none := by
    rw [hbody, Text.find_append_left (hwhole _ List.mem_cons_self),
      Text.find_eq_none_iff.mpr (hquiet _ List.mem_cons_self)]
    rfl
  have htool : d.findTool (d.body text) = none := by
    rw [hbody, findTool_append_left fun token h => hwhole token (List.mem_cons_of_mem _ h),
      findTool_eq_none_iff.mpr fun token h => hquiet token (List.mem_cons_of_mem _ h)]
    rfl
  unfold divide
  rw [if_pos hreasons, hend]
  dsimp only
  rw [htool, hbody]

theorem Opening.divided {results : List StreamingParseResult}
    (horder : emitted results = reasoning results ++ normal results)
    (h : Opening d text [] (reasoning results) (normal results) s) : d.Divided text s results := by
  have htext : text = s.buffer := by rw [h.text, List.append_nil]
  have hstart : ¬ d.thinkStartToken <+: text := by
    intro hstands
    rw [htext] at hstands
    exact h.quiet _ List.mem_cons_self hstands.isInfix
  have hreasons := reasons_of_not_start hstart
  refine ⟨d.divide_parts text, horder, fun hmode => ⟨h.answered, ?_⟩, fun hmode => ?_⟩
  · rw [h.mode] at hmode
    rw [h.reasoned]
    refine divide_of_quiet (hreasons.trans hmode) (fun token htoken =>
      h.quiet token (mem_tokensToCheck htoken)) ?_ fun token _ => Text.noneWithin_nil token _
    rw [body_of_not_start hstart, htext, List.nil_append]
  · rw [h.mode] at hmode
    refine ⟨[], fun c hc => absurd hc List.not_mem_nil, ?_⟩
    unfold divide
    rw [if_neg (by rw [hreasons, hmode]; exact Bool.false_ne_true), h.reasoned, h.answered, htext]
    rfl

theorem Invariant.divided {results : List StreamingParseResult}
    (horder : emitted results = reasoning results ++ normal results)
    (h : Invariant d text [] (reasoning results) (normal results) s) :
    d.Divided text s results := by
  rcases h with hopening | hreasoning | hanswering
  · exact hopening.divided horder
  · have hbody := hreasoning.body
    have hwhole := hreasoning.whole
    rw [List.append_nil] at hbody hwhole
    refine ⟨d.divide_parts text, horder, fun _ => ⟨hreasoning.answered, ?_⟩, fun hmode => ?_⟩
    · exact divide_of_quiet hreasoning.reasons hreasoning.quiet hbody hwhole
    · rw [hreasoning.mode] at hmode
      cases hmode
  · refine ⟨d.divide_parts text, horder, fun hmode => ?_, fun _ => ?_⟩
    · rw [hanswering.mode] at hmode
      cases hmode
    · obtain ⟨spaces, hspaces, hdivided⟩ := hanswering.divided
      rw [List.append_nil] at hdivided
      exact ⟨spaces, hspaces, hdivided⟩

/-- However a text is cut into chunks, the detector divides it as the whole text is
divided, as long as no chunk makes it drop held text, cut a token or keep the start
token. -/
theorem parseStream_divided (d : ReasoningDetector) (chunks : List Text) (hapart : d.Apart)
    (hplain : d.Plain chunks.flatten) (hrun : d.LosslessRun d.init chunks) :
    d.Divided chunks.flatten (d.parseStream d.init chunks).1 (d.parseStream d.init chunks).2 := by
  obtain ⟨hinvariant, horder⟩ :=
    (invariant_init hapart chunks.flatten).parseStream hapart hplain hrun
  simp only [List.nil_append] at hinvariant horder
  exact hinvariant.divided horder

section Runs

instance (s : ReasoningState) (chunk : Text) : Decidable (d.Continues s chunk) :=
  decidable_of_iff (d.isHeld (s.buffer ++ chunk) = false ∧
    (d.stripStart s (s.buffer ++ chunk)).1.inReasoning = true ∧
    Text.find d.thinkEndToken (d.stripStart s (s.buffer ++ chunk)).2 = none ∧
    d.findTool (d.stripStart s (s.buffer ++ chunk)).2 = none)
    ⟨fun h => ⟨h.1, h.2.1, h.2.2.1, h.2.2.2⟩, fun h => ⟨h.free, h.reasoning, h.noEnd, h.noTool⟩⟩

instance (s : ReasoningState) (chunk rest : Text) : Decidable (d.Lossless s chunk rest) :=
  decidable_of_iff ((d.isHeld (s.buffer ++ chunk) = false →
      (d.stripStart s (s.buffer ++ chunk)).1.inReasoning = false → s.buffer = []) ∧
    (d.Continues s chunk → d.streamReasoning = true → ∀ token ∈ d.thinkEndToken :: d.toolTokens,
      ¬ Text.Straddles token (d.stripStart s (s.buffer ++ chunk)).2 rest) ∧
    (d.Continues s chunk → d.streamReasoning = false → d.strips s (s.buffer ++ chunk) = false))
    ⟨fun h => ⟨h.1, h.2.1, h.2.2⟩, fun h => ⟨h.keeps, h.whole, h.strips⟩⟩

instance decidableLosslessRun (d : ReasoningDetector) :
    ∀ (s : ReasoningState) (chunks : List Text), Decidable (d.LosslessRun s chunks)
  | _, [] => isTrue trivial
  | s, chunk :: rest =>
    have := decidableLosslessRun d (d.parseStreamingIncrement s chunk).1 rest
    inferInstanceAs (Decidable (_ ∧ _))

theorem glm45_apart (streamReasoning forceReasoning : Bool) :
    (glm45Detector streamReasoning forceReasoning).Apart := by
  have hparts : ∀ token ∈ (glm45Detector true true).tokensToCheck,
      ∀ other ∈ (glm45Detector true true).tokensToCheck, ∀ part ∈ other.inits,
        part ≠ other → Text.find token part = none := by decide
  refine ⟨?_, fun token htoken other hother part hpart hne => ?_⟩
  · show ∀ token ∈ (glm45Detector true true).tokensToCheck, token ≠ []
    decide
  · exact Text.find_eq_none_iff.mp
      (hparts token htoken other hother part ((List.mem_inits _ _).mpr hpart) hne)

/-- A reasoned answer in which the start token comes in two chunks. -/
def reasonedChunks : List Text :=
  ["<thi".toList, "nk>ab".toList, "c </think>d".toList, "e".toList]

theorem reasonedChunks_plain : (glm45Detector true false).Plain reasonedChunks.flatten := by
  have hplaces : ∀ before ∈ reasonedChunks.flatten.inits,
      before ++ "<think>".toList <+: reasonedChunks.flatten → before = [] := by decide +kernel
  have htool : ¬ "<tool_call>".toList <:+: (glm45Detector true false).body reasonedChunks.flatten := by
    decide +kernel
  refine ⟨fun before h => ?_, fun _ token htoken before hbefore hin => ?_⟩
  · exact hplaces before ((List.mem_inits _ _).mpr ((List.prefix_append _ _).trans h)) h
  · obtain rfl : token = "<tool_call>".toList := List.mem_singleton.mp htoken
    exact absurd (hin.trans hbefore.isInfix) htool

theorem reasonedChunks_divided : (glm45Detector true false).Divided reasonedChunks.flatten
    ((glm45Detector true false).parseStream (glm45Detector true false).init reasonedChunks).1
    ((glm45Detector true false).parseStream (glm45Detector true false).init reasonedChunks).2 :=
  parseStream_divided _ _ (glm45_apart true false) reasonedChunks_plain (by decide +kernel)

/-- What is parsed of a list of chunks: the reasoning, the normal text and what is held. -/
def parsed (d : ReasoningDetector) (chunks : List Text) : Text × Text × Text :=
  (reasoning (d.parseStream d.init chunks).2, normal (d.parseStream d.init chunks).2,
    (d.parseStream d.init chunks).1.buffer)

/-- Without reasoning the end token stays; the tool token ends the reasoning where it comes
before the chunk with the end token; an end token that begins another one is held. -/
theorem parsed_by_design :
    parsed (glm45Detector true false) ["a</think>b".toList] = ([], "a</think>b".toList, []) ∧
    parsed (glm45Detector true true) ["a<tool_call>b</think>c".toList] =
      ("a<tool_call>b".toList, "c".toList, []) ∧
    parsed (glm45Detector true true) ["a<tool_call>".toList, "b</think>c".toList] =
      ("a".toList, "<tool_call>b</think>c".toList, []) ∧
    parsed ⟨"<think>".toList, "<t".toList, true, true, none⟩ ["a".toList, "<t".toList] =
      ("a".toList, [], "<t".toList) := by
  decide +kernel

-- held text is dropped, a tag is cut and a start token is kept by chunks that are not lossless
example : parsed (glm45Detector true false) ["<tool".toList, "_call>".toList] =
    ([], "_call>".toList, []) := by decide +kernel

example : parsed (glm45Detector true true) ["a</th".toList, "ink>b".toList] =
    ("a</think>b".toList, [], []) := by decide +kernel

example : parsed (glm45Detector false false) ["<think>".toList, "a</think>b".toList] =
    ("<think>a".toList, "b".toList, []) := by decide +kernel

end Runs

end SglJax.Parsing.ReasoningDetector
