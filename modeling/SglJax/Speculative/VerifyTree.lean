import SglJax.Speculative.EagleTree

/-! Greedy verification: the kernel follows the target's tokens down the tree of each
request and writes them at the nodes it passes; the scheduler reads the tokens of a
request from its part of the array. -/
namespace SglJax.Speculative

/-- `EagleVerifyInput` for `bs` requests. -/
structure VerifyInput where
  bs : Nat
  draftTokenNum : Nat
  specSteps : Nat
  draftToken : Nat → Nat
  retrive : Nat → Retrive

/-- The outputs of the kernel; -1 is `none`. -/
structure VerifyOutput where
  acceptIndex : Nat → Nat → Option Nat
  acceptTokenNum : Nat → Nat
  predicts : Nat → Nat

/-- The state of the kernel's loop for a request. -/
structure VerifyState where
  curIndex : Nat
  lastAcceptedRetriveIdx : Nat
  numAcceptedTokens : Nat
  acceptIndex : Nat → Option Nat
  predicts : Nat → Nat

namespace VerifyInput

variable (input : VerifyInput) (targetPredict : Nat → Nat)

def numSpecTokens : Nat := input.specSteps + 1

/-- `retrive_index[bid, node]` -/
def retriveIndex (bid node : Nat) : Nat := ((input.retrive bid).index node).getD 0

/-- The inner loop: from `node` on along the siblings to one with the target's token. The
outer `none` is a loop that has not ended. -/
def walkSiblings (bid targetTokenId : Nat) : Nat → Option Nat → Option (Option Nat)
  | _, none => some none
  | 0, some _ => none
  | fuel + 1, some node =>
    if input.draftToken (bid * input.draftTokenNum + node) = targetTokenId then some (some node)
    else walkSiblings bid targetTokenId fuel ((input.retrive bid).nextSibling node)

/-- The state once `node` is accepted. -/
def accept (bid node : Nat) (s : VerifyState) : VerifyState where
  curIndex := node
  lastAcceptedRetriveIdx := input.retriveIndex bid node
  numAcceptedTokens := s.numAcceptedTokens + 1
  acceptIndex :=
    Function.update s.acceptIndex (s.numAcceptedTokens + 1) (some (input.retriveIndex bid node))
  predicts :=
    Function.update s.predicts s.lastAcceptedRetriveIdx (targetPredict s.lastAcceptedRetriveIdx)

/-- The outer loop. It does nothing more once no child is accepted. -/
def verifyLoop (bid fuel : Nat) : Nat → VerifyState → Option VerifyState
  | 0, s => some s
  | rounds + 1, s =>
    match input.walkSiblings bid (targetPredict s.lastAcceptedRetriveIdx) fuel
        ((input.retrive bid).nextToken s.curIndex) with
    | none => none
    | some none => some s
    | some (some node) => verifyLoop bid fuel rounds (input.accept targetPredict bid node s)

def initState (bid : Nat) (out : VerifyOutput) : VerifyState where
  curIndex := 0
  lastAcceptedRetriveIdx := input.retriveIndex bid 0
  numAcceptedTokens := 0
  acceptIndex := Function.update
    (setSlice 0 input.numSpecTokens (fun _ => none) (out.acceptIndex bid)) 0
    (some (input.retriveIndex bid 0))
  predicts := out.predicts

/-- What the program of a request leaves. -/
def finishState (bid : Nat) (out : VerifyOutput) (s : VerifyState) : VerifyOutput where
  acceptIndex := Function.update out.acceptIndex bid s.acceptIndex
  acceptTokenNum := Function.update out.acceptTokenNum bid s.numAcceptedTokens
  predicts :=
    Function.update s.predicts s.lastAcceptedRetriveIdx (targetPredict s.lastAcceptedRetriveIdx)

/-- `_verify_tree_greedy_kernel` -/
def verifyRequest (fuel bid : Nat) (out : VerifyOutput) : Option VerifyOutput :=
  (input.verifyLoop targetPredict bid fuel input.specSteps (input.initState bid out)).map
    (finishState targetPredict bid out)

/-- The programs of all requests, on output arrays of any content. -/
def verifyTreeGreedy (fuel : Nat) (out : VerifyOutput) : Nat → Option VerifyOutput
  | 0 => some out
  | bid + 1 => (verifyTreeGreedy fuel out bid).bind (input.verifyRequest targetPredict fuel bid)

end VerifyInput

/-- The result of `EagleVerifyInput.sample`. -/
structure SampleOutput where
  predict : Nat → Nat
  verifiedId : Nat → Nat
  acceptLength : Nat → Nat
  acceptIndex : Nat → Option Nat

/-- `EagleVerifyInput.sample` with `is_all_greedy` -/
def VerifyInput.sample (input : VerifyInput) (targetPredict : Nat → Nat) (fuel : Nat)
    (out : VerifyOutput) : Option SampleOutput :=
  (input.verifyTreeGreedy targetPredict fuel out input.bs).map fun verified =>
    let acceptIndex := fun i => verified.acceptIndex (i / input.numSpecTokens)
      (i % input.numSpecTokens)
    { predict := verified.predicts
      verifiedId := fun i => ((acceptIndex i).map verified.predicts).getD 0
      acceptLength := fun bid => verified.acceptTokenNum bid + 1
      acceptIndex := acceptIndex }

/-- The requests of a batch: how many each rank has, out of its slots. -/
structure SlotLayout where
  perDpBsSize : Nat
  reqs : List Nat

/-- The slots of the requests, rank after rank. -/
def SlotLayout.slots (layout : SlotLayout) : List Nat :=
  (List.range layout.reqs.length).flatMap fun dpRank =>
    (List.range (layout.reqs.getD dpRank 0)).map fun j => dpRank * layout.perDpBsSize + j

/-- `resolve_spec_decode_token_ids`: the tokens for each slot. -/
def resolveSpecDecodeTokenIds (result : SampleOutput) (layout : SlotLayout) (draftTokenNum : Nat) :
    Nat → List Nat :=
  layout.slots.foldl (fun predictTokens i => Function.update predictTokens i
    ((List.range (result.acceptLength i)).map fun k => result.predict (i * draftTokenNum + k)))
    fun _ => []

end SglJax.Speculative
