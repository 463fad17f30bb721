import SglJax.Foundation.PyText
import SglJax.Foundation.Results

/-! Logprobs of a chat completion. The response and every streamed chunk list them with the
same helper; only the row of top logprobs it reads for a token differs. -/
namespace SglJax.Entrypoints

/-- A dictionary keeps a key where it was first inserted, with the value set last. -/
def dictSet {κ ν : Type} [DecidableEq κ] (dict : List (κ × ν)) (key : κ) (value : ν) :
    List (κ × ν) :=
  if key ∈ dict.map Prod.fst then
    dict.map fun item => if item.1 = key then (key, value) else item
  else dict ++ [(key, value)]

def dictOf {κ ν : Type} [DecidableEq κ] (items : List (κ × ν)) : List (κ × ν) :=
  items.foldl (fun dict item => dictSet dict item.1 item.2) []

example : dictOf [('a', 1), ('b', 2), ('a', 3)] = [('a', 3), ('b', 2)] := by decide

/-- What indexing the rows and `.items()` of a missing one raise. -/
inductive LogprobError where
  | indexError
  | attributeError
deriving DecidableEq, Repr

section

variable {ν : Type}

/-- `(logprob, token_id, token_text)` -/
structure LogprobTriple (ν : Type) where
  logprob : ν
  tokenId : Nat
  tokenText : Text
deriving DecidableEq, Repr

/-- The logprob keys of `meta_info`; the row of a position can be `None`. -/
structure MetaInfo (ν : Type) where
  outputTokenLogprobs : List (LogprobTriple ν)
  outputTopLogprobs : Option (List (Option (List (LogprobTriple ν))))
deriving DecidableEq, Repr

structure LogProbs (ν : Type) where
  textOffset : List Int := []
  tokenLogprobs : List ν := []
  tokens : List Text := []
  topLogprobs : List (Option (List (Text × ν))) := []
deriving DecidableEq, Repr

structure TopLogprob (ν : Type) where
  token : Text
  bytes : List UInt8
  logprob : ν
deriving DecidableEq, Repr

structure ChatCompletionTokenLogprob (ν : Type) where
  token : Text
  bytes : List UInt8
  logprob : ν
  topLogprobs : List (TopLogprob ν)
deriving DecidableEq, Repr

/-- `{token[2]: token[0] for token in tokens}` -/
def topDict (row : List (LogprobTriple ν)) : List (Text × ν) :=
  dictOf (row.map fun triple => (triple.tokenText, triple.logprob))

def appendTokenLogprobs (logprobs : LogProbs ν) (triples : List (LogprobTriple ν)) :
    LogProbs ν :=
  { logprobs with
    tokens := logprobs.tokens ++ triples.map LogprobTriple.tokenText
    tokenLogprobs := logprobs.tokenLogprobs ++ triples.map LogprobTriple.logprob
    textOffset := logprobs.textOffset ++ triples.map fun _ => -1 }

def appendTopLogprobs (logprobs : LogProbs ν) (rows : List (Option (List (LogprobTriple ν)))) :
    LogProbs ν :=
  { logprobs with topLogprobs := logprobs.topLogprobs ++ rows.map (Option.map topDict) }

def toOpenaiStyleLogprobs (inputTokenLogprobs outputTokenLogprobs : Option (List (LogprobTriple ν)))
    (inputTopLogprobs outputTopLogprobs : Option (List (Option (List (LogprobTriple ν))))) :
    LogProbs ν :=
  let logprobs : LogProbs ν := {}
  let logprobs := inputTokenLogprobs.elim logprobs (appendTokenLogprobs logprobs)
  let logprobs := outputTokenLogprobs.elim logprobs (appendTokenLogprobs logprobs)
  let logprobs := inputTopLogprobs.elim logprobs (appendTopLogprobs logprobs)
  outputTopLogprobs.elim logprobs (appendTopLogprobs logprobs)

/-- `token.encode("utf-8")` -/
def encode (token : Text) : List UInt8 := token.flatMap String.utf8EncodeChar

def topItems (dict : List (Text × ν)) : List (TopLogprob ν) :=
  dict.map fun item => ⟨item.1, encode item.1, item.2⟩

/-- The row at an index, when there are any rows at all. -/
def selectTopLogprobs (rows : List (Option (List (Text × ν)))) (topLogprobsIdx : Nat) :
    Except LogprobError (List (TopLogprob ν)) :=
  if rows.isEmpty then .ok []
  else match rows[topLogprobsIdx]? with
    | none => .error .indexError
    | some none => .error .attributeError
    | some (some dict) => .ok (topItems dict)

def processLogprobsTokens (logprobs : LogProbs ν) (useTokenIndex : Bool) :
    Except LogprobError (List (ChatCompletionTokenLogprob ν)) :=
  (logprobs.tokens.zip logprobs.tokenLogprobs).zipIdx.mapM fun entry => do
    let topLogprobs ← selectTopLogprobs logprobs.topLogprobs
      (if useTokenIndex then entry.2 else 0)
    return ⟨entry.1.1, encode entry.1.1, entry.1.2, topLogprobs⟩

def processResponseLogprobs (metaInfo : MetaInfo ν) :
    Except LogprobError (List (ChatCompletionTokenLogprob ν)) :=
  processLogprobsTokens
    (toOpenaiStyleLogprobs none (some metaInfo.outputTokenLogprobs) none
      metaInfo.outputTopLogprobs)
    true

def processStreamingLogprobs (metaInfo : MetaInfo ν) (nPrevToken : Nat) :
    Except LogprobError (List (ChatCompletionTokenLogprob ν)) :=
  processLogprobsTokens
    (toOpenaiStyleLogprobs none (some (metaInfo.outputTokenLogprobs.drop nPrevToken)) none
      (some ((metaInfo.outputTopLogprobs.getD []).drop nPrevToken)))
    false

/-- The logprobs `_generate_chat_stream` sends for one choice, over the contents it gets. -/
def generateChatStream : List (MetaInfo ν) → Nat →
    Except LogprobError (List (ChatCompletionTokenLogprob ν))
  | [], _ => .ok []
  | content :: rest, nPrevToken => do
    let sent ← processStreamingLogprobs content nPrevToken
    let later ← generateChatStream rest content.outputTokenLogprobs.length
    return sent ++ later

/-- An output token with the row of top logprobs at its position. -/
structure OutputToken (ν : Type) where
  triple : LogprobTriple ν
  top : Option (List (LogprobTriple ν))
deriving DecidableEq, Repr

/-- `convert_logprob_style` after the tokens `sent`: both lists grow together, and the rows are
reported when top logprobs were asked for. -/
def metaInfo (topLogprobsNum : Nat) (sent : List (OutputToken ν)) : MetaInfo ν where
  outputTokenLogprobs := sent.map OutputToken.triple
  outputTopLogprobs := if 0 < topLogprobsNum then some (sent.map OutputToken.top) else none

/-- The contents a request yields when its output arrives in the given chunks: each one
reports everything so far. -/
def contents (topLogprobsNum : Nat) : List (OutputToken ν) → List (List (OutputToken ν)) →
    List (MetaInfo ν)
  | _, [] => []
  | sent, chunk :: rest =>
    metaInfo topLogprobsNum (sent ++ chunk) :: contents topLogprobsNum (sent ++ chunk) rest

def OutputToken.entry (token : OutputToken ν) (topLogprobs : List (TopLogprob ν)) :
    ChatCompletionTokenLogprob ν :=
  ⟨token.triple.tokenText, encode token.triple.tokenText, token.triple.logprob, topLogprobs⟩

/-- The entry of a token whose top logprobs are read from the given row. -/
def OutputToken.entryFrom (token : OutputToken ν) :
    Option (List (LogprobTriple ν)) → Except LogprobError (ChatCompletionTokenLogprob ν)
  | none => .error .attributeError
  | some row => .ok (token.entry (topItems (topDict row)))

/-- The row at the head of a chunk. -/
def firstTop (chunk : List (OutputToken ν)) : Option (List (LogprobTriple ν)) :=
  chunk.head?.bind OutputToken.top

section mapM

variable {α β : Type} {f g : α → Except LogprobError β} {xs : List α}

theorem mapM_ok (f : α → β) (xs : List α) :
    xs.mapM (fun x => (.ok (f x) : Except LogprobError β)) = .ok (xs.map f) := by
  induction xs with
  | nil => rfl
  | cons x xs ih =>
    simp only [List.mapM_cons, ih, ok_bind, List.map_cons]
    rfl

theorem mapM_congr (h : ∀ x ∈ xs, f x = g x) : xs.mapM f = xs.mapM g := by
  induction xs with
  | nil => rfl
  | cons x xs ih =>
    simp only [List.mapM_cons]
    rw [h x List.mem_cons_self, ih fun y hy => h y (List.mem_cons_of_mem x hy)]

theorem mapM_zipIdx_congr {f : α × Nat → Except LogprobError β}
    (h : ∀ x i, xs[i]? = some x → f (x, i) = g x) : xs.zipIdx.mapM f = xs.mapM g := by
  have hfst : xs.mapM g = xs.zipIdx.mapM (g ∘ Prod.fst) := by
    rw [← List.mapM_map, List.zipIdx_map_fst]
  rw [hfst]
  apply mapM_congr
  intro x hx
  exact h x.1 x.2 (List.mem_zipIdx_iff_getElem?.mp hx)

end mapM

section tokens

variable (tokens sent chunk : List (OutputToken ν))

theorem zip_tokens :
    ((tokens.map OutputToken.triple).map LogprobTriple.tokenText).zip
        ((tokens.map OutputToken.triple).map LogprobTriple.logprob) =
      tokens.map fun token => (token.triple.tokenText, token.triple.logprob) := by
  rw [List.map_map, List.map_map, List.zip_map']
  rfl

theorem selectTopLogprobs_bind {tokens : List (OutputToken ν)} {source : OutputToken ν} {i : Nat}
    (token : OutputToken ν) (h : tokens[i]? = some source) :
    (do let topLogprobs ← selectTopLogprobs
          ((tokens.map OutputToken.top).map (Option.map topDict)) i
        return token.entry topLogprobs) = token.entryFrom source.top := by
  have hne : tokens ≠ [] := by
    rintro rfl
    simp at h
  have hrow : ((tokens.map OutputToken.top).map (Option.map topDict))[i]? =
      some (source.top.map topDict) := by simp [h]
  unfold selectTopLogprobs
  rw [if_neg (by simpa using hne), hrow]
  cases source.top <;> rfl

theorem selectTopLogprobs_nil (i : Nat) :
    selectTopLogprobs ([] : List (Option (List (Text × ν)))) i = .ok [] := rfl

theorem response_of_top {topLogprobsNum : Nat} (h : 0 < topLogprobsNum) :
    processResponseLogprobs (metaInfo topLogprobsNum tokens) =
      tokens.mapM fun token => token.entryFrom token.top := by
  simp only [processResponseLogprobs, processLogprobsTokens, toOpenaiStyleLogprobs, metaInfo,
    if_pos h, Option.elim, appendTokenLogprobs, appendTopLogprobs, List.nil_append, zip_tokens,
    List.zipIdx_map, List.mapM_map]
  apply mapM_zipIdx_congr
  intro token i hi
  exact selectTopLogprobs_bind token hi

theorem streaming_of_top {topLogprobsNum : Nat} (h : 0 < topLogprobsNum) :
    processStreamingLogprobs (metaInfo topLogprobsNum (sent ++ chunk)) sent.length =
      chunk.mapM fun token => token.entryFrom (firstTop chunk) := by
  have htriples : ((sent ++ chunk).map OutputToken.triple).drop sent.length =
      chunk.map OutputToken.triple := by simp
  have htops : ((sent ++ chunk).map OutputToken.top).drop sent.length =
      chunk.map OutputToken.top := by simp
  simp only [processStreamingLogprobs, processLogprobsTokens, toOpenaiStyleLogprobs, metaInfo,
    if_pos h, Option.elim, appendTokenLogprobs, appendTopLogprobs, List.nil_append,
    Option.getD_some, htriples, htops, zip_tokens, List.zipIdx_map, List.mapM_map]
  apply mapM_zipIdx_congr
  intro token i hi
  cases chunk with
  | nil => simp at hi
  | cons first rest => exact selectTopLogprobs_bind token rfl

theorem response_of_zero :
    processResponseLogprobs (metaInfo 0 tokens) = .ok (tokens.map fun token => token.entry []) := by
  simp only [processResponseLogprobs, processLogprobsTokens, toOpenaiStyleLogprobs, metaInfo,
    Nat.lt_irrefl, if_false, Option.elim, appendTokenLogprobs, List.nil_append, zip_tokens,
    List.zipIdx_map, List.mapM_map]
  rw [← mapM_ok]
  apply mapM_zipIdx_congr
  intro token i hi
  rfl

theorem streaming_of_zero :
    processStreamingLogprobs (metaInfo 0 (sent ++ chunk)) sent.length =
      .ok (chunk.map fun token => token.entry []) := by
  have htriples : ((sent ++ chunk).map OutputToken.triple).drop sent.length =
      chunk.map OutputToken.triple := by simp
  simp only [processStreamingLogprobs, processLogprobsTokens, toOpenaiStyleLogprobs, metaInfo,
    Nat.lt_irrefl, if_false, Option.elim, appendTokenLogprobs, appendTopLogprobs,
    List.nil_append, Option.getD_none, List.drop_nil, List.map_nil, htriples, zip_tokens,
    List.zipIdx_map, List.mapM_map]
  rw [← mapM_ok]
  apply mapM_zipIdx_congr
  intro token i hi
  rfl

end tokens

section stream

variable (chunks : List (List (OutputToken ν)))

/-- Every token of the chunks with the row at the head of its chunk. -/
def streamPairs : List (OutputToken ν × Option (List (LogprobTriple ν))) :=
  chunks.flatMap fun chunk => chunk.map fun token => (token, firstTop chunk)

theorem streamPairs_fst : (streamPairs chunks).map Prod.fst = chunks.flatten := by
  unfold streamPairs
  induction chunks with
  | nil => rfl
  | cons chunk rest ih =>
    rw [List.flatMap_cons, List.map_append, ih, List.flatten_cons, List.map_map]
    simp [Function.comp_def]

theorem mem_streamPairs {pair : OutputToken ν × Option (List (LogprobTriple ν))} :
    pair ∈ streamPairs chunks ↔ ∃ chunk ∈ chunks, pair.1 ∈ chunk ∧ pair.2 = firstTop chunk := by
  obtain ⟨token, row⟩ := pair
  simp only [streamPairs, List.mem_flatMap, List.mem_map, Prod.mk.injEq]
  constructor
  · rintro ⟨chunk, hchunk, _, htoken, rfl, rfl⟩
    exact ⟨chunk, hchunk, htoken, rfl⟩
  · rintro ⟨chunk, hchunk, htoken, rfl⟩
    exact ⟨chunk, hchunk, token, htoken, rfl, rfl⟩

theorem stream_of_top {topLogprobsNum : Nat} (h : 0 < topLogprobsNum)
    (sent : List (OutputToken ν)) :
    generateChatStream (contents topLogprobsNum sent chunks) sent.length =
      (streamPairs chunks).mapM fun pair => pair.1.entryFrom pair.2 := by
  induction chunks generalizing sent with
  | nil => rfl
  | cons chunk rest ih =>
    have hlen : (metaInfo topLogprobsNum (sent ++ chunk)).outputTokenLogprobs.length =
        (sent ++ chunk).length := List.length_map ..
    rw [contents, generateChatStream, hlen, ih, streaming_of_top sent chunk h]
    conv_rhs => rw [streamPairs, List.flatMap_cons, List.mapM_append, List.mapM_map]
    rfl

theorem stream_of_zero (sent : List (OutputToken ν)) :
    generateChatStream (contents 0 sent chunks) sent.length =
      .ok (chunks.flatten.map fun token => token.entry []) := by
  induction chunks generalizing sent with
  | nil => rfl
  | cons chunk rest ih =>
    have hlen : (metaInfo 0 (sent ++ chunk)).outputTokenLogprobs.length =
        (sent ++ chunk).length := List.length_map ..
    rw [contents, generateChatStream, hlen, ih, streaming_of_zero, ok_bind, ok_bind,
      List.flatten_cons, List.map_append]
    rfl

end stream

section rows

variable {α : Type} {token : α → OutputToken ν} {row : α → Option (List (LogprobTriple ν))}
  {xs : List α}

theorem mapM_entryFrom_of_none (h : ∃ x ∈ xs, row x = none) :
    xs.mapM (fun x => (token x).entryFrom (row x)) = .error .attributeError := by
  induction xs with
  | nil => simp at h
  | cons x xs ih =>
    rw [List.mapM_cons]
    cases hrow : row x with
    | none => rfl
    | some entries =>
      have hrest : ∃ y ∈ xs, row y = none := by simpa [hrow] using h
      rw [ih hrest]
      rfl

theorem mapM_entryFrom_of_some (h : ∀ x ∈ xs, row x ≠ none) :
    xs.mapM (fun x => (token x).entryFrom (row x)) =
      .ok (xs.map fun x => (token x).entry (topItems (topDict ((row x).getD [])))) := by
  rw [← mapM_ok]
  apply mapM_congr
  intro x hx
  obtain ⟨entries, hrow⟩ := Option.ne_none_iff_exists'.mp (h x hx)
  rw [hrow]
  rfl

theorem topItems_injective : Function.Injective (topItems (ν := ν)) := by
  apply List.map_injective_iff.mpr
  intro x y h
  injection h with htoken _ hvalue
  exact Prod.ext htoken hvalue

theorem entry_inj {token : OutputToken ν} {a b : List (Text × ν)} :
    token.entry (topItems a) = token.entry (topItems b) ↔ a = b := by
  constructor
  · intro h
    injection h with _ _ _ hitems
    exact topItems_injective hitems
  · rintro rfl
    rfl

/-- Reading rows that are missing only where the tokens' own are gives the entries of the own
rows just when one of them is missing in both, or each row has the entries of the own one. -/
theorem mapM_entryFrom_eq_iff (hnone : (∃ x ∈ xs, row x = none) → ∃ x ∈ xs, (token x).top = none) :
    xs.mapM (fun x => (token x).entryFrom (row x)) =
        xs.mapM (fun x => (token x).entryFrom (token x).top) ↔
      (∃ x ∈ xs, row x = none) ∨
        ∀ x ∈ xs, (token x).top.map topDict = (row x).map topDict := by
  by_cases hrow : ∃ x ∈ xs, row x = none
  · rw [mapM_entryFrom_of_none hrow, mapM_entryFrom_of_none (hnone hrow)]
    simp [hrow]
  · have hrow' : ∀ x ∈ xs, row x ≠ none := by simpa using hrow
    rw [or_iff_right hrow, mapM_entryFrom_of_some hrow']
    by_cases htop : ∃ x ∈ xs, (token x).top = none
    · rw [mapM_entryFrom_of_none htop]
      obtain ⟨x, hx, hnone⟩ := htop
      refine iff_of_false (by simp) fun h => ?_
      exact hrow' x hx (by simpa [hnone] using (h x hx).symm)
    · have htop' : ∀ x ∈ xs, (token x).top ≠ none := by simpa using htop
      rw [mapM_entryFrom_of_some htop', Except.ok.injEq, List.map_inj_left]
      apply forall₂_congr
      intro x hx
      obtain ⟨own, hown⟩ := Option.ne_none_iff_exists'.mp (htop' x hx)
      obtain ⟨first, hfirst⟩ := Option.ne_none_iff_exists'.mp (hrow' x hx)
      rw [hown, hfirst, entry_inj]
      simp [eq_comm]

end rows

/-- Streaming lists the logprobs of the response exactly when no top logprobs were asked for,
when a chunk starts at a missing row (both raise), or when every token's top logprobs are those
of the first token of its chunk. -/
theorem stream_eq_response_iff (topLogprobsNum : Nat) (chunks : List (List (OutputToken ν))) :
    generateChatStream (contents topLogprobsNum [] chunks) 0 =
        processResponseLogprobs (metaInfo topLogprobsNum chunks.flatten) ↔
      topLogprobsNum = 0 ∨
        (∃ chunk ∈ chunks, chunk ≠ [] ∧ firstTop chunk = none) ∨
        ∀ chunk ∈ chunks, ∀ token ∈ chunk,
          token.top.map topDict = (firstTop chunk).map topDict := by
  rcases Nat.eq_zero_or_pos topLogprobsNum with rfl | hpos
  · rw [response_of_zero]
    simpa using stream_of_zero chunks []
  have hresponse : processResponseLogprobs (metaInfo topLogprobsNum chunks.flatten) =
      (streamPairs chunks).mapM fun pair => pair.1.entryFrom pair.1.top := by
    rw [response_of_top _ hpos, ← streamPairs_fst, List.mapM_map]
    rfl
  -- a chunk that starts at a missing row has a token without one
  have hnone : (∃ pair ∈ streamPairs chunks, pair.2 = none) →
      ∃ pair ∈ streamPairs chunks, pair.1.top = none := by
    rintro ⟨pair, hpair, hrow⟩
    obtain ⟨chunk, hchunk, htoken, heq⟩ := (mem_streamPairs chunks).mp hpair
    cases chunk with
    | nil => simp at htoken
    | cons first rest =>
      refine ⟨(first, pair.2), (mem_streamPairs chunks).mpr ?_, ?_⟩
      · exact ⟨_, hchunk, List.mem_cons_self, heq⟩
      · rw [← hrow, heq]
        rfl
  have hstream := stream_of_top chunks hpos []
  rw [List.length_nil] at hstream
  rw [hstream, hresponse, mapM_entryFrom_eq_iff hnone, or_iff_right (Nat.ne_of_gt hpos)]
  apply or_congr
  · constructor
    · rintro ⟨pair, hpair, hrow⟩
      obtain ⟨chunk, hchunk, htoken, heq⟩ := (mem_streamPairs chunks).mp hpair
      exact ⟨chunk, hchunk, List.ne_nil_of_mem htoken, heq ▸ hrow⟩
    · rintro ⟨chunk, hchunk, hne, hrow⟩
      obtain ⟨token, htoken⟩ := List.exists_mem_of_ne_nil chunk hne
      exact ⟨(token, firstTop chunk), (mem_streamPairs chunks).mpr ⟨chunk, hchunk, htoken, rfl⟩,
        hrow⟩
  · constructor
    · intro h chunk hchunk token htoken
      exact h (token, firstTop chunk)
        ((mem_streamPairs chunks).mpr ⟨chunk, hchunk, htoken, rfl⟩)
    · intro h pair hpair
      obtain ⟨chunk, hchunk, htoken, heq⟩ := (mem_streamPairs chunks).mp hpair
      rw [heq]
      exact h chunk hchunk pair.1 htoken

/-- A chunk of two tokens: the second is sent with the alternatives of the first. -/
def twoTokens : List (OutputToken Int) :=
  [⟨⟨-1, 1, ['H', 'i']⟩, some [⟨-1, 1, ['H', 'i']⟩]⟩, ⟨⟨-2, 2, ['!']⟩, some [⟨-2, 2, ['!']⟩]⟩]

theorem twoTokens_stream :
    generateChatStream (contents 1 [] [twoTokens]) 0 ≠
      processResponseLogprobs (metaInfo 1 [twoTokens].flatten) := by
  decide

end

end SglJax.Entrypoints
