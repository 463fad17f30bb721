import SglJax.Foundation.PyText

/-! When a request is finished: `check_finished` after each accepted block, and the
ids that are shown from then on. -/
namespace SglJax.Managers.FinishCheck

structure SamplingParams where
  ignoreEos : Bool
  stopTokenIds : List Int
  maxNewTokens : Nat
  stopStrs : List Text
  stopStrMaxLen : Nat

/-- What the checks ask of a tokenizer. -/
structure Tokenizer where
  eosTokenId : Option Int
  additionalStopTokenIds : List Int
  decode : List Int → Text

inductive FinishReason where
  | matchedToken (matched : Int)
  | matchedStr (matched : Text)
  | length (length : Nat)
  | abort (message : Text)
deriving DecidableEq, Repr

inductive FinishError where
  | attributeError
  | indexError
deriving DecidableEq, Repr

/-- `grammar` is the answer of `is_terminated` where there is a grammar. -/
structure Req where
  samplingParams : SamplingParams
  eosTokenIds : List Int
  tokenizer : Option Tokenizer
  vocabSize : Option Int
  grammar : Option Bool
  outputIds : List Int
  decodedText : Text
  toFinish : Option FinishReason
  finishedReason : Option FinishReason
  finishedLen : Option Nat

/-- `xs[-n:]` -/
def lastIds (xs : List Int) (n : Nat) : List Int :=
  if n = 0 then xs else xs.drop (xs.length - n)

namespace Req

variable (req : Req)

def finished : Bool := req.finishedReason.isSome

def outputIdsThroughStop : List Int :=
  match req.finishedLen with
  | some finishedLen => req.outputIds.take finishedLen
  | none => req.outputIds

/-- The tests that set `matched_eos`. -/
def matchesEos (tokenId : Int) : Bool :=
  req.samplingParams.stopTokenIds.contains tokenId || req.eosTokenIds.contains tokenId ||
    match req.tokenizer with
    | none => false
    | some tokenizer =>
      tokenizer.eosTokenId == some tokenId || tokenizer.additionalStopTokenIds.contains tokenId

/-- The first of the new tokens that matches, with its place. -/
def firstEos : Nat → List Int → Option (Nat × Int)
  | _, [] => none
  | i, tokenId :: rest => if req.matchesEos tokenId then some (i, tokenId) else firstEos (i + 1) rest

/-- `_check_token_based_finish` -/
def checkTokenBasedFinish (newAcceptedTokens : List Int) : Req × Bool :=
  if req.samplingParams.ignoreEos then (req, false)
  else
    match req.firstEos 0 newAcceptedTokens with
    | none => (req, false)
    | some (i, tokenId) =>
      let matchedPos := req.outputIds.length - newAcceptedTokens.length + i
      ({ req with
          finishedReason := some (.matchedToken tokenId)
          finishedLen := some (matchedPos + 1) }, true)

def outOfVocab (tokenId : Int) : Bool :=
  match req.vocabSize with
  | none => false
  | some vocabSize => vocabSize < tokenId || tokenId < 0

/-- `_check_vocab_boundary_finish` -/
def checkVocabBoundaryFinish (newAcceptedTokens : List Int) : Req × Bool :=
  if newAcceptedTokens.any req.outOfVocab then
    let outputIds :=
      match req.samplingParams.stopTokenIds.head?, req.eosTokenIds.head? with
      | some tokenId, _ => req.outputIds.dropLast ++ [tokenId]
      | none, some tokenId => req.outputIds.dropLast ++ [tokenId]
      | none, none => req.outputIds
    ({ req with
        outputIds := outputIds
        finishedReason := some (.matchedStr "NaN happened".toList) }, true)
  else (req, false)

/-- `stop_str in text` -/
def hasText (stopStr text : Text) : Bool := (Text.find stopStr text).isSome

/-- `_check_str_based_finish` -/
def checkStrBasedFinish : Except FinishError Req :=
  if req.samplingParams.stopStrs.length > 0 then
    match req.tokenizer with
    | none => .error .attributeError
    | some tokenizer =>
      let tailStr := tokenizer.decode
        (lastIds req.outputIds (req.samplingParams.stopStrMaxLen + 1))
      match req.samplingParams.stopStrs.find? fun stopStr =>
        hasText stopStr tailStr || hasText stopStr req.decodedText with
      | some stopStr => .ok { req with finishedReason := some (.matchedStr stopStr) }
      | none => .ok req
  else .ok req

def checkFinished (newAcceptedLen : Nat) : Except FinishError Req :=
  if req.finished then .ok req
  else
    match req.toFinish with
    | some reason => .ok { req with finishedReason := some reason, toFinish := none }
    | none =>
      let newAcceptedTokens := lastIds req.outputIds newAcceptedLen
      let (req, matched) := req.checkTokenBasedFinish newAcceptedTokens
      if matched && req.finishedLen.any (· < req.samplingParams.maxNewTokens) then .ok req
      else if req.samplingParams.maxNewTokens ≤ req.outputIds.length then
        .ok { req with
          finishedReason := some (.length req.samplingParams.maxNewTokens)
          finishedLen := some req.samplingParams.maxNewTokens }
      else if req.grammar = some true then
        match req.outputIds.getLast? with
        | none => .error .indexError
        | some tokenId => .ok { req with finishedReason := some (.matchedToken tokenId) }
      else
        let (req, outside) := req.checkVocabBoundaryFinish newAcceptedTokens
        if outside then .ok req else req.checkStrBasedFinish

end Req

/-! ### Where the output has to stop -/

/-- The ids end in a stop token or are as many as the request may have. -/
def Stops (req : Req) (ids : List Int) : Prop :=
  (∃ tokenId, ids.getLast? = some tokenId ∧ req.matchesEos tokenId = true) ∨
    ids.length = req.samplingParams.maxNewTokens

/-- The shortest part of the output that stops. -/
structure ShortestStop (req : Req) (ids part : List Int) : Prop where
  part_of : part <+: ids
  stops : Stops req part
  least : ∀ other, other <+: ids → Stops req other → part.length ≤ other.length

/-- A stop string stands at the end of the output or in the text sent. -/
def StopStrFires (req : Req) : Prop :=
  ∃ stopStr ∈ req.samplingParams.stopStrs,
    (∃ tokenizer, req.tokenizer = some tokenizer ∧ Req.hasText stopStr (tokenizer.decode
      (lastIds req.outputIds (req.samplingParams.stopStrMaxLen + 1))) = true) ∨
    Req.hasText stopStr req.decodedText = true

/-- A request whose last tokens are an accepted block that no check has seen. -/
structure Accepted (req : Req) (visible block : List Int) : Prop where
  outputIds : req.outputIds = visible ++ block
  block_ne : block ≠ []
  running : req.finishedReason = none
  finishedLen : req.finishedLen = none
  toFinish : req.toFinish = none
  ignoreEos : req.samplingParams.ignoreEos = false
  noStop : ∀ tokenId ∈ visible, req.matchesEos tokenId = false
  short : visible.length < req.samplingParams.maxNewTokens
  inVocab : ∀ tokenId ∈ block, ∀ vocabSize, req.vocabSize = some vocabSize →
    0 ≤ tokenId ∧ tokenId < vocabSize

section Checks

variable {req : Req} {visible block : List Int}

theorem firstEos_eq_none {tokens : List Int} (i : Nat) :
    req.firstEos i tokens = none ↔ ∀ tokenId ∈ tokens, req.matchesEos tokenId = false := by
  induction tokens generalizing i with
  | nil => simp [Req.firstEos]
  | cons tokenId rest ih =>
    rw [Req.firstEos]
    split
    · rename_i hmatch
      simp [hmatch]
    · rename_i hmatch
      rw [ih]
      simp [hmatch]

/-- The first match with what stands before it. -/
theorem firstEos_eq_some {tokens : List Int} {i j : Nat} {tokenId : Int}
    (h : req.firstEos i tokens = some (j, tokenId)) :
    ∃ before after, tokens = before ++ tokenId :: after ∧ j = i + before.length ∧
      req.matchesEos tokenId = true ∧ ∀ other ∈ before, req.matchesEos other = false := by
  induction tokens generalizing i with
  | nil => cases h
  | cons first rest ih =>
    rw [Req.firstEos] at h
    split at h
    · rename_i hmatch
      cases h
      exact ⟨[], rest, rfl, rfl, hmatch, by simp⟩
    · rename_i hmatch
      obtain ⟨before, after, rfl, rfl, htoken, hbefore⟩ := ih h
      refine ⟨first :: before, after, rfl, ?_, htoken, ?_⟩
      · rw [List.length_cons]
        omega
      · intro other hother
        rcases List.mem_cons.mp hother with rfl | hother
        · simpa using hmatch
        · exact hbefore other hother

theorem Accepted.lastIds_eq (h : Accepted req visible block) :
    lastIds req.outputIds block.length = block := by
  have hpos := List.length_pos_iff.mpr h.block_ne
  unfold lastIds
  rw [if_neg (by omega), h.outputIds, List.length_append, Nat.add_sub_cancel, List.drop_left]

theorem Accepted.outputIds_ne (h : Accepted req visible block) : req.outputIds ≠ [] := by
  rw [h.outputIds]
  simp [h.block_ne]

theorem Accepted.inside (h : Accepted req visible block) : block.any req.outOfVocab = false := by
  rw [List.any_eq_false]
  intro tokenId hmem
  unfold Req.outOfVocab
  cases hvocab : req.vocabSize with
  | none => simp
  | some vocabSize =>
    have := h.inVocab tokenId hmem vocabSize hvocab
    simp only [Bool.or_eq_true, decide_eq_true_eq]
    omega

/-- Parts of the output without a stop token stop only by their length. -/
theorem Stops.length_ge {ids before rest other : List Int} (hids : ids = before ++ rest)
    (hbefore : ∀ tokenId ∈ before, req.matchesEos tokenId = false) (hother : other <+: ids)
    (h : Stops req other) :
    before.length + 1 ≤ other.length ∨ other.length = req.samplingParams.maxNewTokens := by
  rcases h with ⟨tokenId, hlast, hmatch⟩ | hlen
  · left
    by_contra hshort
    have hpart : other <+: before := by
      rw [hids] at hother
      exact List.prefix_of_prefix_length_le hother (List.prefix_append _ _) (by omega)
    have hmem := hpart.subset (List.mem_of_getLast? hlast)
    rw [hbefore tokenId hmem] at hmatch
    cases hmatch
  · exact .inr hlen

/-- Up to the first stop token, where that is within the limit. -/
theorem shortestStop_token {ids before after : List Int} {tokenId : Int}
    (hids : ids = before ++ tokenId :: after) (hmatch : req.matchesEos tokenId = true)
    (hbefore : ∀ other ∈ before, req.matchesEos other = false)
    (hle : before.length + 1 ≤ req.samplingParams.maxNewTokens) :
    ShortestStop req ids (ids.take (before.length + 1)) := by
  have htake : ids.take (before.length + 1) = before ++ [tokenId] := by
    rw [hids, List.take_append, List.take_of_length_le (Nat.le_succ _), Nat.add_sub_cancel_left]
    rfl
  refine ⟨List.take_prefix _ _, .inl ⟨tokenId, ?_, hmatch⟩, ?_⟩
  · rw [htake, List.getLast?_concat]
  · intro other hother hstops
    rw [htake, List.length_append, List.length_singleton]
    rcases hstops.length_ge hids hbefore hother with hge | heq
    · exact hge
    · omega

/-- Up to the limit, where no stop token comes before. -/
theorem shortestStop_length {ids before rest : List Int} (hids : ids = before ++ rest)
    (hbefore : ∀ other ∈ before, req.matchesEos other = false)
    (hlen : req.samplingParams.maxNewTokens ≤ before.length + 1)
    (hle : req.samplingParams.maxNewTokens ≤ ids.length) :
    ShortestStop req ids (ids.take req.samplingParams.maxNewTokens) := by
  have htake : (ids.take req.samplingParams.maxNewTokens).length =
      req.samplingParams.maxNewTokens := by
    rw [List.length_take, Nat.min_eq_left hle]
  refine ⟨List.take_prefix _ _, .inr htake, ?_⟩
  intro other hother hstops
  rw [htake]
  rcases hstops.length_ge hids hbefore hother with hge | heq
  · omega
  · omega

/-! ### What the check leaves -/

/-- What a check of an accepted block ought to leave: the request is finished when
something stops it, and shows the shortest part that stops. -/
structure StopsRight (req after : Req) : Prop where
  finished_iff : after.finished = true ↔
    (∃ tokenId ∈ req.outputIds, req.matchesEos tokenId = true) ∨
      req.samplingParams.maxNewTokens ≤ req.outputIds.length ∨ req.grammar = some true ∨
      StopStrFires req
  shown : (∃ tokenId ∈ req.outputIds, req.matchesEos tokenId = true) ∨
      req.samplingParams.maxNewTokens ≤ req.outputIds.length →
    ShortestStop req req.outputIds after.outputIdsThroughStop

/-- The token check on its own. -/
theorem Accepted.token_cases (h : Accepted req visible block) :
    (req.checkTokenBasedFinish block = (req, false) ∧
      ∀ tokenId ∈ req.outputIds, req.matchesEos tokenId = false) ∨
    ∃ before tokenId after, req.outputIds = before ++ tokenId :: after ∧
      req.matchesEos tokenId = true ∧ (∀ other ∈ before, req.matchesEos other = false) ∧
      req.checkTokenBasedFinish block = ({ req with
        finishedReason := some (.matchedToken tokenId)
        finishedLen := some (before.length + 1) }, true) := by
  unfold Req.checkTokenBasedFinish
  rw [h.ignoreEos, if_neg Bool.false_ne_true]
  cases hfirst : req.firstEos 0 block with
  | none =>
    left
    rw [firstEos_eq_none] at hfirst
    refine ⟨rfl, ?_⟩
    intro tokenId hmem
    rw [h.outputIds] at hmem
    rcases List.mem_append.mp hmem with hmem | hmem
    · exact h.noStop tokenId hmem
    · exact hfirst tokenId hmem
  | some found =>
    right
    obtain ⟨i, tokenId⟩ := found
    obtain ⟨before, after, hblock, hi, hmatch, hbefore⟩ := firstEos_eq_some hfirst
    have hpos : req.outputIds.length - block.length + i = (visible ++ before).length := by
      rw [h.outputIds, List.length_append, List.length_append]
      omega
    refine ⟨visible ++ before, tokenId, after, ?_, hmatch, ?_, ?_⟩
    · rw [h.outputIds, hblock, List.append_assoc]
    · intro other hother
      rcases List.mem_append.mp hother with hother | hother
      · exact h.noStop other hother
      · exact hbefore other hother
    · dsimp only
      rw [hpos]

/-- A block that holds a stop token or reaches the limit. -/
theorem Accepted.checkFinished_stop (h : Accepted req visible block)
    (hstop : (∃ tokenId ∈ req.outputIds, req.matchesEos tokenId = true) ∨
      req.samplingParams.maxNewTokens ≤ req.outputIds.length) :
    ∃ after, req.checkFinished block.length = .ok after ∧ after.finished = true ∧
      ShortestStop req req.outputIds after.outputIdsThroughStop := by
  have hrunning : req.finished = false := by
    rw [Req.finished, h.running]
    rfl
  unfold Req.checkFinished
  rw [hrunning, if_neg Bool.false_ne_true, h.toFinish]
  dsimp only
  rw [h.lastIds_eq]
  rcases h.token_cases with ⟨hcheck, hnone⟩ | ⟨before, tokenId, after, hids, hmatch, hbefore, hcheck⟩
  · -- Only the limit stops it.
    have hlong : req.samplingParams.maxNewTokens ≤ req.outputIds.length := by
      rcases hstop with ⟨tokenId, hmem, hmatch⟩ | hlong
      · rw [hnone tokenId hmem] at hmatch
        cases hmatch
      · exact hlong
    rw [hcheck]
    dsimp only
    rw [Bool.false_and, if_neg Bool.false_ne_true, if_pos hlong]
    refine ⟨_, rfl, rfl, ?_⟩
    exact shortestStop_length (List.append_nil _).symm hnone (by omega) hlong
  · have hlen : before.length + 1 ≤ req.outputIds.length := by
      rw [hids, List.length_append, List.length_cons]
      omega
    rw [hcheck]
    dsimp only
    rw [Bool.true_and, Option.any_some]
    by_cases hlt : before.length + 1 < req.samplingParams.maxNewTokens
    · rw [if_pos (by simpa using hlt)]
      refine ⟨_, rfl, rfl, ?_⟩
      exact shortestStop_token hids hmatch hbefore hlt.le
    · -- The limit comes first, or at the same place.
      rw [if_neg (by simpa using hlt), if_pos (by omega)]
      refine ⟨_, rfl, rfl, ?_⟩
      exact shortestStop_length hids hbefore (by omega) (by omega)

/-- The search for stop strings, where there is a tokenizer for it. -/
theorem checkStrBasedFinish_spec (hnone : req.finishedReason = none)
    (h : req.tokenizer ≠ none ∨ req.samplingParams.stopStrs = []) :
    ∃ after, req.checkStrBasedFinish = .ok after ∧
      (after.finished = true ↔ StopStrFires req) := by
  have hrunning : req.finished = false := by
    rw [Req.finished, hnone]
    rfl
  unfold Req.checkStrBasedFinish
  by_cases hstrs : req.samplingParams.stopStrs = []
  · rw [hstrs, if_neg (by simp)]
    refine ⟨req, rfl, ?_⟩
    simp [hrunning, StopStrFires, hstrs]
  · rw [if_pos (List.length_pos_iff.mpr hstrs)]
    obtain ⟨tokenizer, htok⟩ := Option.ne_none_iff_exists'.mp (h.resolve_right hstrs)
    rw [htok]
    dsimp only
    split
    · rename_i stopStr hfind
      refine ⟨_, rfl, iff_of_true rfl ⟨stopStr, List.mem_of_find?_eq_some hfind, ?_⟩⟩
      have := List.find?_some hfind
      rw [Bool.or_eq_true] at this
      exact this.imp_left fun h => ⟨tokenizer, htok, h⟩
    · rename_i hfind
      refine ⟨req, rfl, iff_of_false (by simp [hrunning]) ?_⟩
      rintro ⟨stopStr, hmem, hfires⟩
      have hnot := List.find?_eq_none.mp hfind stopStr hmem
      apply hnot
      rw [Bool.or_eq_true]
      refine hfires.imp_left ?_
      rintro ⟨other, hother, htail⟩
      rw [htok] at hother
      cases hother
      exact htail

/-- A block that does neither. -/
theorem Accepted.checkFinished_go (h : Accepted req visible block)
    (hnone : ∀ tokenId ∈ req.outputIds, req.matchesEos tokenId = false)
    (hshort : req.outputIds.length < req.samplingParams.maxNewTokens) :
    req.checkFinished block.length =
      if req.grammar = some true then
        .ok { req with
          finishedReason := some (.matchedToken (req.outputIds.getLast h.outputIds_ne)) }
      else req.checkStrBasedFinish := by
  have hrunning : req.finished = false := by
    rw [Req.finished, h.running]
    rfl
  unfold Req.checkFinished
  rw [hrunning, if_neg Bool.false_ne_true, h.toFinish]
  dsimp only
  rw [h.lastIds_eq]
  rcases h.token_cases with ⟨hcheck, -⟩ | ⟨before, tokenId, after, hids, hmatch, -⟩
  · rw [hcheck]
    dsimp only
    rw [Bool.false_and, if_neg Bool.false_ne_true, if_neg (by omega),
      List.getLast?_eq_some_getLast h.outputIds_ne, Req.checkVocabBoundaryFinish, h.inside,
      if_neg Bool.false_ne_true]
    dsimp only
    rw [if_neg Bool.false_ne_true, h.toFinish]
  · rw [hnone tokenId (by rw [hids]; simp)] at hmatch
    cases hmatch

/-- The check does right but where it looks for stop strings without a tokenizer. -/
theorem checkFinished_iff (h : Accepted req visible block) :
    (∃ after, req.checkFinished block.length = .ok after ∧ StopsRight req after) ↔
      req.tokenizer ≠ none ∨ req.samplingParams.stopStrs = [] ∨
        (∃ tokenId ∈ req.outputIds, req.matchesEos tokenId = true) ∨
        req.samplingParams.maxNewTokens ≤ req.outputIds.length ∨ req.grammar = some true := by
  by_cases hstop : (∃ tokenId ∈ req.outputIds, req.matchesEos tokenId = true) ∨
      req.samplingParams.maxNewTokens ≤ req.outputIds.length
  · obtain ⟨after, heq, hdone, hshown⟩ := h.checkFinished_stop hstop
    refine iff_of_true ⟨after, heq, ⟨iff_of_true hdone ?_, fun _ => hshown⟩⟩ ?_
    · exact hstop.imp_right .inl
    · exact .inr (.inr (hstop.imp_right .inl))
  · have hshow (after : Req) (hiff : after.finished = true ↔ req.grammar = some true ∨
        StopStrFires req) : StopsRight req after := by
      refine ⟨?_, fun h => absurd h hstop⟩
      rw [hiff, ← or_assoc, or_iff_right hstop]
    push Not at hstop
    have hnone : ∀ tokenId ∈ req.outputIds, req.matchesEos tokenId = false := fun tokenId hmem => by
      simpa using hstop.1 tokenId hmem
    rw [h.checkFinished_go hnone hstop.2]
    by_cases hgrammar : req.grammar = some true
    · rw [if_pos hgrammar]
      exact iff_of_true ⟨_, rfl, hshow _ (iff_of_true rfl (.inl hgrammar))⟩
        (.inr (.inr (.inr (.inr hgrammar))))
    · rw [if_neg hgrammar]
      constructor
      · rintro ⟨after, heq, -⟩
        by_contra hnot
        push Not at hnot
        rw [Req.checkStrBasedFinish, if_pos (List.length_pos_iff.mpr hnot.2.1), hnot.1] at heq
        cases heq
      · intro hcond
        obtain ⟨after, heq, hiff⟩ := checkStrBasedFinish_spec h.running (by
          rcases hcond with htok | hstrs | ⟨tokenId, hmem, hmatch⟩ | hlong | htrue
          · exact .inl htok
          · exact .inr hstrs
          · rw [hnone tokenId hmem] at hmatch
            cases hmatch
          · omega
          · exact absurd htrue hgrammar)
        refine ⟨after, heq, hshow after ?_⟩
        rw [hiff, or_iff_right hgrammar]

end Checks

/-- A request that has shown one token and got a block of two. -/
def twoAccepted (tokenizer : Option Tokenizer) (stopStrs : List Text) : Req where
  samplingParams := ⟨false, [9], 8, stopStrs, 1⟩
  eosTokenIds := [2]
  tokenizer := tokenizer
  vocabSize := some 100
  grammar := none
  outputIds := [5, 6, 7]
  decodedText := []
  toFinish := none
  finishedReason := none
  finishedLen := none

theorem twoAccepted_accepted (stopStrs : List Text) :
    Accepted (twoAccepted none stopStrs) [5] [6, 7] where
  outputIds := rfl
  block_ne := by simp
  running := rfl
  finishedLen := rfl
  toFinish := rfl
  ignoreEos := rfl
  noStop := by
    intro tokenId hmem
    rw [List.mem_singleton.mp hmem]
    rfl
  short := by
    change 1 < 8
    omega
  inVocab := by
    intro tokenId hmem vocabSize hvocab
    cases hvocab
    simp only [List.mem_cons, List.not_mem_nil, or_false] at hmem
    omega

theorem checkFinished_two : (∃ after, (twoAccepted none []).checkFinished [(6 : Int), 7].length =
      .ok after ∧ StopsRight (twoAccepted none []) after) ↔
    (twoAccepted none []).tokenizer ≠ none ∨ (twoAccepted none []).samplingParams.stopStrs = [] ∨
      (∃ tokenId ∈ (twoAccepted none []).outputIds,
        (twoAccepted none []).matchesEos tokenId = true) ∨
      (twoAccepted none []).samplingParams.maxNewTokens ≤ (twoAccepted none []).outputIds.length ∨
      (twoAccepted none []).grammar = some true :=
  checkFinished_iff (twoAccepted_accepted [])

/-- Without a tokenizer a request with a stop string cannot be checked at all. -/
theorem checkFinished_no_tokenizer :
    Accepted (twoAccepted none [['x']]) [5] [6, 7] ∧
    (twoAccepted none [['x']]).checkFinished [(6 : Int), 7].length = .error .attributeError ∧
    ¬ ∃ after, (twoAccepted none [['x']]).checkFinished [(6 : Int), 7].length = .ok after ∧
      StopsRight (twoAccepted none [['x']]) after := by
  refine ⟨twoAccepted_accepted _, rfl, ?_⟩
  rintro ⟨after, heq, -⟩
  cases heq

end SglJax.Managers.FinishCheck
