import SglJax.Foundation.ResidualSampling
import SglJax.Speculative.VerifyTree

/-! Tree speculative sampling: the children of a node are tried in order against one
coin, and what they leave of the target's row is sampled with another. -/
namespace SglJax.Speculative

open Foundation.ResidualSampling

/-- What `tree_speculative_sampling_target_only` reads; -1 is `none`. -/
structure SamplingInput (K : Type) where
  bs : Nat
  numSpecStep : Nat
  numDraftTokens : Nat
  vocabSize : Nat
  candidates : Nat → Nat → Nat
  retriveIndex : Nat → Nat → Nat
  retriveNextToken : Nat → Nat → Option Nat
  retriveNextSibling : Nat → Nat → Option Nat
  uniformSamples : Nat → Nat → K
  uniformSamplesForFinalSampling : Nat → K
  targetProbs : Nat → Nat → K
  thresholdSingle : K
  thresholdAcc : K

/-- The arrays that it changes. -/
structure SamplingArrays (K : Type) where
  acceptIndex : Nat → Nat → Option Nat
  acceptTokenNum : Nat → Nat
  predicts : Nat → Nat
  draftProbs : Nat → Nat → K

/-- The state of the loop over the steps of a request. -/
structure SamplingState (K : Type) where
  probAcc : K
  curProbOffset : Nat
  curIndex : Nat
  coin : K
  lastAcceptedRetriveIdx : Nat
  numAcceptedTokens : Nat
  acceptIndex : Nat → Option Nat
  predicts : Nat → Nat
  draftProbs : Nat → Nat → K

/-- One entry of a matrix is set. -/
def setEntry {K : Type} (m : Nat → Nat → K) (row col : Nat) (value : K) : Nat → Nat → K :=
  Function.update m row (Function.update (m row) col value)

section Kernel

variable {K : Type} [Field K] [LinearOrder K]

/-- `_sampling_from_prob`: the first entry at which the running sum exceeds the
threshold. -/
def samplingFromProb (vocabSize : Nat) (probs : Nat → K) (threshold : K) : Nat :=
  firstAbove (fun t => if 0 < probs t then probs t else 0) threshold vocabSize

namespace SamplingInput

variable (input : SamplingInput K)

/-- The state once `node` is accepted. -/
def accept (bid node : Nat) (s : SamplingState K) : SamplingState K where
  probAcc := 0
  curProbOffset := bid * input.numDraftTokens + node
  curIndex := node
  coin := input.uniformSamples bid node
  lastAcceptedRetriveIdx := input.retriveIndex bid node
  numAcceptedTokens := s.numAcceptedTokens + 1
  acceptIndex :=
    Function.update s.acceptIndex (s.numAcceptedTokens + 1) (some (input.retriveIndex bid node))
  predicts := Function.update s.predicts s.lastAcceptedRetriveIdx (input.candidates bid node)
  draftProbs := s.draftProbs

/-- The inner loop, with whether a child was accepted. The outer `none` is a loop that
has not ended. -/
def trySiblings (bid : Nat) : Nat → Option Nat → SamplingState K → Option (Bool × SamplingState K)
  | _, none, s => some (false, s)
  | 0, some _, _ => none
  | fuel + 1, some node, s =>
    let draftTokenId := input.candidates bid node
    let targetProbSingle := input.targetProbs s.curProbOffset draftTokenId
    let probAcc := s.probAcc + targetProbSingle
    if s.coin ≤ probAcc / input.thresholdAcc ∨ input.thresholdSingle ≤ targetProbSingle then
      some (true, input.accept bid node { s with probAcc := probAcc })
    else
      trySiblings bid fuel (input.retriveNextSibling bid node)
        { s with
          probAcc := probAcc
          draftProbs := setEntry s.draftProbs s.curProbOffset draftTokenId targetProbSingle }

/-- The outer loop. It ends once no child is accepted. -/
def sampleLoop (bid fuel : Nat) : Nat → SamplingState K → Option (SamplingState K)
  | 0, s => some s
  | rounds + 1, s =>
    match input.trySiblings bid fuel (input.retriveNextToken bid s.curIndex) s with
    | none => none
    | some (false, s) => some s
    | some (true, s) => sampleLoop bid fuel rounds s

def startState (bid : Nat) (arrays : SamplingArrays K) : SamplingState K where
  probAcc := 0
  curProbOffset := bid * input.numDraftTokens
  curIndex := 0
  coin := input.uniformSamples bid 0
  lastAcceptedRetriveIdx := input.retriveIndex bid 0
  numAcceptedTokens := 0
  acceptIndex := Function.update (arrays.acceptIndex bid) 0 (some (input.retriveIndex bid 0))
  predicts := arrays.predicts
  draftProbs := arrays.draftProbs

/-- What the final sampling draws from: `relu_q_minus_p_vec`. -/
def reluQMinusP (s : SamplingState K) (t : Nat) : K :=
  max (input.targetProbs s.curProbOffset t -
    if s.numAcceptedTokens + 1 ≠ input.numSpecStep then s.draftProbs s.curProbOffset t else 0) 0

def sampledId (bid : Nat) (s : SamplingState K) : Nat :=
  samplingFromProb input.vocabSize (input.reluQMinusP s)
    (input.uniformSamplesForFinalSampling bid * mass (input.reluQMinusP s) input.vocabSize)

/-- The final sampling. -/
def finish (bid : Nat) (arrays : SamplingArrays K) (s : SamplingState K) : SamplingArrays K where
  acceptIndex := Function.update arrays.acceptIndex bid s.acceptIndex
  acceptTokenNum := Function.update arrays.acceptTokenNum bid s.numAcceptedTokens
  predicts := Function.update s.predicts s.lastAcceptedRetriveIdx (input.sampledId bid s)
  draftProbs := s.draftProbs

/-- The body of the loop over the requests. -/
def sampleRequest (fuel bid : Nat) (arrays : SamplingArrays K) : Option (SamplingArrays K) :=
  (input.sampleLoop bid fuel (input.numSpecStep - 1) (input.startState bid arrays)).map
    (input.finish bid arrays)

/-- The first `bids` requests. -/
def sampleRequests (fuel : Nat) (arrays : SamplingArrays K) : Nat → Option (SamplingArrays K)
  | 0 => some arrays
  | bid + 1 => (sampleRequests fuel arrays bid).bind (input.sampleRequest fuel bid)

/-- `tree_speculative_sampling_target_only` -/
def treeSpeculativeSamplingTargetOnly (fuel : Nat) (arrays : SamplingArrays K) :
    Option (SamplingArrays K) := input.sampleRequests fuel arrays input.bs

end SamplingInput

/-! ### Trees -/

/-- The nodes that the pointers lead through, from `first` to the end. -/
def Chain (next : Nat → Option Nat) : Option Nat → List Nat → Prop
  | first, [] => first = none
  | first, node :: rest => first = some node ∧ Chain next (next node) rest

/-- The nodes of a request's tree with their depths. -/
inductive NodeAt (input : SamplingInput K) (bid : Nat) : Nat → Nat → Prop
  | root : NodeAt input bid 0 0
  | child {v depth node : Nat} {nodes : List Nat} : NodeAt input bid v depth →
      Chain (input.retriveNextSibling bid) (input.retriveNextToken bid v) nodes → node ∈ nodes →
      NodeAt input bid node (depth + 1)

/-- The pointers of a request give a tree: the siblings of a node end, with distinct
tokens, and a node has one depth. -/
structure IsTree (input : SamplingInput K) (bid : Nat) : Prop where
  ends : ∀ v depth, NodeAt input bid v depth → ∃ nodes,
    Chain (input.retriveNextSibling bid) (input.retriveNextToken bid v) nodes ∧
      (nodes.map (input.candidates bid)).Nodup
  once : ∀ v depth depth', NodeAt input bid v depth → NodeAt input bid v depth' → depth = depth'
  inRange : ∀ v depth, NodeAt input bid v depth → v < input.numDraftTokens
  inVocab : ∀ v depth, NodeAt input bid v (depth + 1) → input.candidates bid v < input.vocabSize

end Kernel

end SglJax.Speculative
