import SglJax.Foundation.TopK
import Mathlib.Algebra.Group.Nat.Defs
import Mathlib.Algebra.Order.Ring.Defs

/-! Drafting with EAGLE, for one request: each step extends the `topk` sequences that the
step before has kept by `topk` tokens, and keeps the best. All extensions are candidates
for the tree, in the order of the steps. -/
namespace SglJax.Speculative

section Arrays

variable {α : Type}

/-- `old.at[start : start + len].set(values)` -/
def setSlice (start len : Nat) (values old : Nat → α) : Nat → α :=
  fun i => if start ≤ i ∧ i < start + len then values (i - start) else old i

theorem setSlice_of_lt {start len i : Nat} {values old : Nat → α} (h : i < start) :
    setSlice start len values old i = old i :=
  if_neg fun hi => absurd hi.1 (by omega)

theorem setSlice_add {start len j : Nat} {values old : Nat → α} (h : j < len) :
    setSlice start len values old (start + j) = values j := by
  unfold setSlice
  rw [if_pos ⟨Nat.le_add_right _ _, by omega⟩, Nat.add_sub_cancel_left]

end Arrays

variable {R : Type}

/-- What the draft model returns for a request: `topk` probabilities and tokens for each
row. The first step has a single row. -/
structure DraftOutput (R : Type) where
  topkP : Nat → Nat → R
  topkIndex : Nat → Nat → Nat

structure TreeInfo (R : Type) where
  scores : Nat → Nat → R
  tokens : Nat → Nat
  parents : Nat → Int

/-- The result of `select_top_k_tokens`. -/
structure Selected (R : Type) where
  inputIds : Nat → Nat
  scores : Nat → R
  treeInfo : TreeInfo R

/-- A row of each of the three lists. -/
structure EagleLists (R : Type) where
  scoreList : Nat → Nat → R
  tokenList : Nat → Nat
  parentsList : Nat → Int

/-! ### Selecting -/

def selectTopKTokensStep0 (output : DraftOutput R) : Selected R where
  inputIds := output.topkIndex 0
  scores := output.topkP 0
  treeInfo :=
    { scores := fun _ => output.topkP 0
      tokens := output.topkIndex 0
      parents := fun j => (j : Int) - 1 }

section Step

variable [Mul R]

/-- The probabilities of all extensions of the kept sequences. -/
def expandScores (output : DraftOutput R) (scores : Nat → R) (j m : Nat) : R :=
  scores j * output.topkP j m

variable [LinearOrder R]

/-- `topk_cs_index` -/
def topkCsIndex (output : DraftOutput R) (scores : Nat → R) (topk : Nat) : List Nat :=
  topK topk (topk * topk) fun q => expandScores output scores (q / topk) (q % topk)

def selectTopKTokensStepGreater0 (i : Nat) (output : DraftOutput R) (scores : Nat → R)
    (topk : Nat) : Selected R :=
  let index := fun j => (topkCsIndex output scores topk).getD j 0
  { inputIds := fun j => output.topkIndex (index j / topk) (index j % topk)
    scores := fun j => expandScores output scores (index j / topk) (index j % topk)
    treeInfo :=
      { scores := expandScores output scores
        tokens := fun q => output.topkIndex (q / topk) (q % topk)
        parents := fun j => index j + (topk ^ 2 * (i - 1) + topk : Nat) } }

def selectTopKTokens (i : Nat) (output : DraftOutput R) (scores : Nat → R) (topk : Nat) :
    Selected R :=
  if i = 0 then selectTopKTokensStep0 output
  else selectTopKTokensStepGreater0 i output scores topk

end Step

def updateEagleLists (i : Nat) (lists : EagleLists R) (info : TreeInfo R) (topk : Nat) :
    EagleLists R :=
  if i = 0 then
    { scoreList := setSlice 0 1 info.scores lists.scoreList
      tokenList := setSlice 0 topk info.tokens lists.tokenList
      parentsList := setSlice 0 (topk + 1) info.parents lists.parentsList }
  else
    { scoreList := setSlice (1 + (i - 1) * topk) topk info.scores lists.scoreList
      tokenList := setSlice (topk + (i - 1) * topk * topk) (topk * topk) info.tokens lists.tokenList
      parentsList := setSlice (topk + 1 + (i - 1) * topk) topk info.parents lists.parentsList }

/-! ### All steps -/

structure DraftState (R : Type) where
  scores : Nat → R
  lists : EagleLists R

section Forward

variable [Mul R] [LinearOrder R]

/-- What is selected in step `i`, from the scores of the step before. -/
def selectedAt (draft : Nat → DraftOutput R) (topk : Nat) (state : DraftState R) (i : Nat) :
    Selected R :=
  selectTopKTokens i (draft i) state.scores topk

/-- `draft_forward`: the state after some steps, from lists of any content. -/
def draftForward (draft : Nat → DraftOutput R) (topk : Nat) (empty : DraftState R) :
    Nat → DraftState R
  | 0 => empty
  | i + 1 =>
    let state := draftForward draft topk empty i
    let selected := selectedAt draft topk state i
    { scores := selected.scores
      lists := updateEagleLists i state.lists selected.treeInfo topk }

end Forward

/-! ### The tree's tokens -/

structure TreeInput where
  parentList : Nat → Int
  /-- `top_scores_index` -/
  selectedIndex : List Nat
  draftTokens : List Nat

def candidateCount (topk speculativeNumSteps : Nat) : Nat :=
  (1 + (speculativeNumSteps - 1) * topk) * topk

/-- `scores.reshape(bs, -1)` -/
def scoreTensor (lists : EagleLists R) (topk : Nat) : Nat → R :=
  fun c => lists.scoreList (c / topk) (c % topk)

def buildTreeKernelEfficientPreprocess [LinearOrder R] (verifiedId : Nat) (lists : EagleLists R)
    (topk numVerifyTokens speculativeNumSteps : Nat) : TreeInput :=
  let topScoresIndex := (topK (numVerifyTokens - 1) (candidateCount topk speculativeNumSteps)
    (scoreTensor lists topk)).insertionSort (· ≤ ·)
  { parentList := if speculativeNumSteps > 1 then lists.parentsList else fun _ => -1
    selectedIndex := topScoresIndex
    draftTokens := verifiedId :: topScoresIndex.map lists.tokenList }

end SglJax.Speculative
