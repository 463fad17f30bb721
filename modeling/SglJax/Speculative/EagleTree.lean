import SglJax.Speculative.DraftLists

/-! The kernel that builds the verify tree: one program for each request, which writes
its part of the mask and of the positions and its row of the three link arrays. -/
namespace SglJax.Speculative

/-- `tree_mask_mode`; `FULL_MASK` is 0. -/
inductive TreeMaskMode where
  | fullMask
  | other
deriving DecidableEq, Repr

/-- The arrays that a kernel reads. -/
structure KernelInput where
  parents : Nat → Nat → Int
  selectedIndex : Nat → Nat → Nat
  verifiedSeqLen : Nat → Nat
  treeMaskSize : Nat
  treeMaskCapacity : Nat
  draftTokenNum : Nat
  topk : Nat
  mode : TreeMaskMode

/-- A row of the link arrays; -1 is `none`. -/
structure Retrive where
  index : Nat → Option Nat
  nextToken : Nat → Option Nat
  nextSibling : Nat → Option Nat

structure TreeOutput where
  treeMask : Nat → Nat
  positions : Nat → Nat
  retrive : Nat → Retrive

namespace KernelInput

variable (input : KernelInput)

/-! ### Initial values -/

def setTreeMask (start offset val : Nat) (mask : Nat → Nat) : Nat → Nat :=
  setSlice start offset (fun _ => val) mask

def initTreeMask (mask : Nat → Nat) : Nat → Nat :=
  let padded :=
    if input.treeMaskSize < input.treeMaskCapacity then
      setTreeMask input.treeMaskSize (input.treeMaskCapacity - input.treeMaskSize) 0 mask
    else mask
  setTreeMask 0 input.treeMaskSize 1 padded

def initRetrive (row : Retrive) : Retrive where
  index := setSlice 0 input.draftTokenNum (fun _ => none) row.index
  nextToken := setSlice 0 input.draftTokenNum (fun _ => none) row.nextToken
  nextSibling := setSlice 0 input.draftTokenNum (fun _ => none) row.nextSibling

def initOutput (bid : Nat) (out : TreeOutput) : TreeOutput where
  treeMask := if bid = 0 then input.initTreeMask out.treeMask else out.treeMask
  positions := setSlice (bid * input.draftTokenNum) input.draftTokenNum (fun _ => 0) out.positions
  retrive := Function.update out.retrive bid (input.initRetrive (out.retrive bid))

/-! ### Where a request's part of the mask begins -/

def seqTreeIdx (bid : Nat) : Nat :=
  let start := input.draftTokenNum * input.draftTokenNum * bid
  match input.mode with
  | .fullMask =>
    (List.range bid).foldl (fun idx i => idx + input.verifiedSeqLen i * input.draftTokenNum) start
  | .other => start

def tokenTreeIdx (bid tid : Nat) : Nat :=
  match input.mode with
  | .fullMask =>
    input.seqTreeIdx bid + (input.verifiedSeqLen bid + input.draftTokenNum) * tid +
      input.verifiedSeqLen bid + 1
  | .other =>
    input.draftTokenNum * input.draftTokenNum * bid + input.draftTokenNum * tid + 1

/-! ### The links -/

/-- The first of `count` places from `pos` on that holds the candidate. -/
def search (selected : Nat → Nat) (candidate : Int) : Nat → Nat → Option Nat
  | 0, _ => none
  | count + 1, pos =>
    if (selected pos : Int) = candidate then some pos else search selected candidate count (pos + 1)

def parentTbIdx (bid position : Nat) : Nat := input.selectedIndex bid position / input.topk

/-- The place of the candidate that the one at `position` extends. -/
def searchParent (bid position : Nat) : Option Nat :=
  search (input.selectedIndex bid) (input.parents bid (input.parentTbIdx bid position))
    (input.draftTokenNum - 1) 0

/-- The parent's node; the root where no parent is found. -/
def parentPosition (bid i : Nat) : Nat :=
  if 0 < input.parentTbIdx bid (i - 1) then
    match input.searchParent bid (i - 1) with
    | some pos => pos + 1
    | none => 0
  else 0

/-- The node `i` becomes the first child. -/
def prependChild (row : Retrive) (i parent : Nat) : Retrive :=
  match row.nextToken parent with
  | none => { row with nextToken := Function.update row.nextToken parent (some i) }
  | some origin =>
    { row with
      nextToken := Function.update row.nextToken parent (some i)
      nextSibling := Function.update row.nextSibling i (some origin) }

def linkNode (bid i : Nat) (row : Retrive) : Retrive :=
  let row := { row with
    index := Function.update row.index i (some (bid * input.draftTokenNum + i)) }
  if input.parentPosition bid i ≥ input.draftTokenNum then row
  else prependChild row i (input.parentPosition bid i)

/-- The loop from the node `i` down to 1. -/
def linkNodes (bid : Nat) : Nat → Retrive → Retrive
  | 0, row => row
  | i + 1, row => linkNodes bid i (input.linkNode bid (i + 1) row)

def buildRetrive (bid : Nat) (row : Retrive) : Retrive :=
  let linked := input.linkNodes bid (input.draftTokenNum - 1) row
  { linked with index := Function.update linked.index 0 (some (bid * input.draftTokenNum)) }

/-! ### The way to the root -/

/-- The mask and the position after at most `fuel` nodes up from the one at `cur`. -/
def traceToRoot (bid start : Nat) : Nat → Nat → (Nat → Nat) → Nat → (Nat → Nat) × Nat
  | 0, _, mask, position => (mask, position)
  | fuel + 1, cur, mask, position =>
    let marked := if start + cur < input.treeMaskSize then setTreeMask (start + cur) 1 1 mask
      else mask
    if input.parentTbIdx bid cur = 0 then (marked, position + 1)
    else
      traceToRoot bid start fuel ((input.searchParent bid cur).getD cur) marked (position + 1)

/-! ### The kernel -/

/-- The row of the mask before ancestors are marked. -/
def clearRow (start : Nat) (mask : Nat → Nat) : Nat → Nat :=
  (List.range (input.draftTokenNum - 1)).foldl (fun mask i => setTreeMask (start + i) 1 0 mask)
    (setTreeMask (start - 1) 1 1 mask)

def buildTreeBody (bid : Nat) (out : TreeOutput) (tid : Nat) : TreeOutput :=
  let start := input.tokenTreeIdx bid tid
  let cleared := input.clearRow start out.treeMask
  let globalTokenIdx := bid * input.draftTokenNum + tid
  if tid = 0 then
    let positions := Function.update out.positions globalTokenIdx (input.verifiedSeqLen bid)
    { treeMask := cleared
      positions := positions
      retrive := Function.update out.retrive bid (input.buildRetrive bid
        { out.retrive bid with
          index := Function.update (out.retrive bid).index 0 (some globalTokenIdx) }) }
  else
    let traced := input.traceToRoot bid start input.draftTokenNum (tid - 1) cleared 0
    { treeMask := traced.1
      positions :=
        Function.update out.positions globalTokenIdx (traced.2 + input.verifiedSeqLen bid)
      retrive := Function.update out.retrive bid
        { out.retrive bid with
          index := Function.update (out.retrive bid).index tid (some globalTokenIdx) } }

def buildRequest (out : TreeOutput) (bid : Nat) : TreeOutput :=
  (List.range input.draftTokenNum).foldl (input.buildTreeBody bid) (input.initOutput bid out)

/-- The programs of `bs` requests, on arrays of any content. -/
def buildTrees (bs : Nat) (out : TreeOutput) : TreeOutput :=
  (List.range bs).foldl input.buildRequest out

end KernelInput

/-- The arrays of a batch; `tree_mask_size` and `tree_mask_capacity` as the caller of the
kernel computes them. -/
def kernelInput (trees : List TreeInput) (verifiedSeqLen : List Nat)
    (seqLensSum draftTokenNum topk maxContextLen : Nat) (mode : TreeMaskMode) : KernelInput where
  parents := fun bid => ((trees[bid]?).map TreeInput.parentList).getD fun _ => -1
  selectedIndex := fun bid i => (((trees[bid]?).map TreeInput.selectedIndex).getD []).getD i 0
  verifiedSeqLen := fun bid => verifiedSeqLen.getD bid 0
  treeMaskSize :=
    match mode with
    | .fullMask => seqLensSum * draftTokenNum + draftTokenNum * draftTokenNum * trees.length
    | .other => trees.length * draftTokenNum * draftTokenNum
  treeMaskCapacity :=
    match mode with
    | .fullMask =>
      maxContextLen * draftTokenNum * trees.length + draftTokenNum * draftTokenNum * trees.length
    | .other => trees.length * draftTokenNum * draftTokenNum
  draftTokenNum := draftTokenNum
  topk := topk
  mode := mode

/-- `build_eagle_tree_structure` -/
def buildEagleTreeStructure (trees : List TreeInput) (verifiedSeqLen : List Nat)
    (seqLensSum draftTokenNum topk maxContextLen : Nat) (mode : TreeMaskMode) (out : TreeOutput) :
    TreeOutput :=
  (kernelInput trees verifiedSeqLen seqLensSum draftTokenNum topk maxContextLen mode).buildTrees
    trees.length out

end SglJax.Speculative
