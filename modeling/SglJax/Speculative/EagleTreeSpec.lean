import SglJax.Speculative.DraftClosure
import SglJax.Speculative.EagleTreeMask
import Mathlib.Algebra.BigOperators.Ring.Finset
import Mathlib.Algebra.Group.Action.Defs
import Mathlib.Algebra.Order.Ring.Rat
import Mathlib.Tactic.NormNum

/-! The verify tree encodes the drafted tree: its nodes are the verified token and the
selected candidates, and a node's parent is the candidate that it extends. -/
namespace SglJax.Speculative

/-- Candidates that contain what they extend. -/
structure Selection where
  candidates : List Nat
  parentOf : Nat → Option Nat
  sorted : candidates.Pairwise (· < ·)
  parent_lt : ∀ {c p}, c ∈ candidates → parentOf c = some p → p < c
  closed : ∀ {c p}, c ∈ candidates → parentOf c = some p → p ∈ candidates

namespace Selection

variable (s : Selection)

/-- The node that stands for a candidate. -/
def nodeOf (c : Nat) : Nat := s.candidates.idxOf c + 1

def parentNode (t : Nat) : Option Nat :=
  if t = 0 then none
  else
    match s.candidates[t - 1]? with
    | none => none
    | some c =>
      match s.parentOf c with
      | none => some 0
      | some p => some (s.nodeOf p)

variable {s} {t i j c p : Nat}

theorem getElem?_idxOf (h : c ∈ s.candidates) : s.candidates[s.candidates.idxOf c]? = some c := by
  have hlt := List.idxOf_lt_length_of_mem h
  rw [List.getElem?_eq_getElem hlt, List.getElem_idxOf hlt]

/-- The places of candidates are in the candidates' order. -/
theorem lt_of_getElem? (hi : s.candidates[i]? = some c) (hj : s.candidates[j]? = some p)
    (h : p < c) : j < i := by
  obtain ⟨hli, rfl⟩ := List.getElem?_eq_some_iff.mp hi
  obtain ⟨hlj, rfl⟩ := List.getElem?_eq_some_iff.mp hj
  have hsorted := List.pairwise_iff_getElem.mp s.sorted
  by_contra hle
  rcases Nat.lt_or_eq_of_le (Nat.le_of_not_lt hle) with hlt | rfl
  · exact absurd (hsorted i j hli hlj hlt) (by omega)
  · exact absurd h (Nat.lt_irrefl _)

/-- The tree of the candidates, with the verified token as its root. -/
def tree (s : Selection) : ParentTree where
  parent := s.parentNode
  parent_lt := by
    intro t u h
    unfold parentNode at h
    split at h
    · cases h
    · rename_i hne
      split at h
      · cases h
      · rename_i c hc
        split at h
        · cases h
          omega
        · rename_i p hp
          cases h
          have hmem := List.mem_of_getElem? hc
          have hlt := lt_of_getElem? hc (getElem?_idxOf (s.closed hmem hp)) (s.parent_lt hmem hp)
          unfold nodeOf
          omega

theorem search_eq {selected : Nat → Nat} {candidate pos count k : Nat}
    (hk : k < count) (hfound : selected (pos + k) = candidate)
    (hfirst : ∀ j < k, selected (pos + j) ≠ candidate) :
    KernelInput.search selected candidate count pos = some (pos + k) := by
  induction count generalizing pos k with
  | zero => omega
  | succ count ih =>
    unfold KernelInput.search
    cases k with
    | zero =>
      rw [Nat.add_zero] at hfound
      rw [hfound, if_pos rfl, Nat.add_zero]
    | succ k =>
      have hne := hfirst 0 (Nat.succ_pos k)
      rw [Nat.add_zero] at hne
      rw [if_neg (by exact_mod_cast hne)]
      have hrest : selected (pos + 1 + k) = candidate := by
        rw [Nat.add_assoc, Nat.add_comm 1 k]
        exact hfound
      rw [ih (Nat.lt_of_succ_lt_succ hk) hrest, Nat.add_assoc, Nat.add_comm 1 k]
      intro j hj
      have := hfirst (j + 1) (Nat.succ_lt_succ hj)
      rw [Nat.add_assoc, Nat.add_comm 1 j]
      exact this

/-- The kernel reads the tree from the two arrays of a request. -/
theorem encodes {input : KernelInput} {bid : Nat} (s : Selection)
    (hcount : input.draftTokenNum = s.candidates.length + 1)
    (hselected : ∀ i c, s.candidates[i]? = some c → input.selectedIndex bid i = c)
    (hparents : ∀ c ∈ s.candidates, (c / input.topk = 0 ∧ s.parentOf c = none) ∨
      (0 < c / input.topk ∧ ∃ p, s.parentOf c = some p ∧ input.parents bid (c / input.topk) = p)) :
    KernelInput.Encodes input bid s.tree where
  root := rfl
  outside := by
    intro t ht
    show s.parentNode t = none
    unfold parentNode
    rw [if_neg (by omega), List.getElem?_eq_none (by omega)]
  parent := by
    intro t hpos ht
    have hlt : t - 1 < s.candidates.length := by omega
    have hc := List.getElem?_eq_getElem hlt
    have hmem := List.mem_of_getElem? hc
    have hindex := hselected _ _ hc
    have hnode : s.tree.parent t =
        match s.parentOf s.candidates[t - 1] with
        | none => some 0
        | some p => some (s.nodeOf p) := by
      show s.parentNode t = _
      unfold parentNode
      rw [if_neg (by omega), hc]
    unfold KernelInput.parentTbIdx
    rw [hnode, hindex]
    rcases hparents _ hmem with ⟨hzero, hnone⟩ | ⟨hnonzero, p, hparent, hlist⟩
    · left
      rw [hnone]
      exact ⟨hzero, rfl⟩
    · right
      rw [hparent]
      refine ⟨hnonzero, s.candidates.idxOf p, ?_, rfl⟩
      have hp := getElem?_idxOf (s.closed hmem hparent)
      unfold KernelInput.searchParent KernelInput.parentTbIdx
      rw [hindex, hlist, ← Nat.zero_add (s.candidates.idxOf p)]
      apply search_eq
      · rw [hcount, Nat.add_sub_cancel]
        exact List.idxOf_lt_length_of_mem (s.closed hmem hparent)
      · rw [Nat.zero_add]
        exact hselected _ _ hp
      · intro j hj
        rw [Nat.zero_add]
        have hj' := List.getElem?_eq_getElem (hj.trans
          (List.idxOf_lt_length_of_mem (s.closed hmem hparent)))
        rw [hselected _ _ hj']
        intro heq
        rw [heq] at hj'
        obtain ⟨hlj, hej⟩ := List.getElem?_eq_some_iff.mp hj'
        obtain ⟨hlp, hep⟩ := List.getElem?_eq_some_iff.mp hp
        have hsorted := List.pairwise_iff_getElem.mp s.sorted j _ hlj hlp hj
        rw [hej, hep] at hsorted
        exact Nat.lt_irrefl _ hsorted

end Selection

/-! ### A batch -/

variable {R : Type} [Semiring R] [LinearOrder R] [IsStrictOrderedRing R]

/-- The drafting of a request: what the draft model returns in each step, from arrays of
any content. -/
structure Drafting (R : Type) (topk : Nat) [Semiring R] [LinearOrder R] where
  draft : Nat → DraftOutput R
  probabilities : Probabilities draft topk
  empty : DraftState R
  verifiedId : Nat
  seqLen : Nat

namespace Drafting

variable {topk : Nat} (d : Drafting R topk) (numVerifyTokens steps : Nat)

def treeInput : TreeInput :=
  Speculative.treeInput d.draft topk d.empty d.verifiedId numVerifyTokens steps

/-- The selected candidates of a request. -/
def selection : Selection where
  candidates := (d.treeInput numVerifyTokens steps).selectedIndex
  parentOf := parentOf d.draft topk d.empty
  sorted := sorted_selectedIndex
  parent_lt := fun hc hp =>
    (precedes_parent d.probabilities (lt_of_mem_topK (mem_selectedIndex.mp hc)) hp).1
  closed := parentOf_mem_selectedIndex d.probabilities

/-- The verify tree of a request. -/
def tree : ParentTree := (d.selection numVerifyTokens steps).tree

end Drafting

open KernelInput in
/-- What the arrays hold for the request `b` of a batch. -/
structure EncodesTree (seqLens : List Nat) (numVerifyTokens : Nat) (T : ParentTree) (b : Nat)
    (out : TreeOutput) : Prop where
  index : ∀ t < numVerifyTokens, (out.retrive b).index t = some (b * numVerifyTokens + t)
  children : ∀ t < numVerifyTokens, ∃ nodes,
    Linked (out.retrive b).nextSibling ((out.retrive b).nextToken t) nodes ∧ nodes.Nodup ∧
      ∀ u, u ∈ nodes ↔ T.parent u = some t
  positions : ∀ t < numVerifyTokens,
    out.positions (b * numVerifyTokens + t) = seqLens.getD b 0 + T.depth t
  mask : ∀ t < numVerifyTokens, ∀ col < seqLens.getD b 0 + numVerifyTokens,
    Marked
      (out.treeMask ((Finset.range b).sum (fun i =>
          numVerifyTokens * (seqLens.getD i 0 + numVerifyTokens)) +
        (seqLens.getD b 0 + numVerifyTokens) * t + col))
      (col < seqLens.getD b 0 ∨ ∃ u, col = seqLens.getD b 0 + u ∧ T.Above u t)

/-- `np.sum(verified_seq_lens)` -/
def sumSeqLens (seqLens : List Nat) : Nat := seqLens.foldl (· + ·) 0

theorem sumSeqLens_eq (seqLens : List Nat) :
    sumSeqLens seqLens = (Finset.range seqLens.length).sum fun i => seqLens.getD i 0 := by
  have hfold : ∀ (xs : List Nat) start, xs.foldl (· + ·) start =
      start + (Finset.range xs.length).sum fun i => xs.getD i 0 := by
    intro xs
    induction xs with
    | nil => intro start; rfl
    | cons x xs ih =>
      intro start
      rw [List.foldl_cons, ih, List.length_cons, Finset.sum_range_succ']
      simp only [List.getD_cons_succ, List.getD_cons_zero]
      omega
  unfold sumSeqLens
  rw [hfold, Nat.zero_add]

/-- The verify trees of a batch. -/
def treeAt {topk : Nat} (batch : List (Drafting R topk)) (numVerifyTokens steps b : Nat) :
    ParentTree :=
  match batch[b]? with
  | some d => d.tree numVerifyTokens steps
  | none => ⟨fun _ => none, fun h => by cases h⟩

theorem encodes_kernelInput {topk numVerifyTokens steps b : Nat} (batch : List (Drafting R topk))
    (maxContextLen : Nat) (hverify : 0 < numVerifyTokens)
    (hcount : numVerifyTokens - 1 ≤ candidateCount topk steps) (hb : b < batch.length) :
    KernelInput.Encodes
      (kernelInput (batch.map fun d => d.treeInput numVerifyTokens steps)
        (batch.map Drafting.seqLen) (sumSeqLens (batch.map Drafting.seqLen)) numVerifyTokens topk
        maxContextLen .fullMask) b (treeAt batch numVerifyTokens steps b) := by
  have hget : (batch.map fun d => d.treeInput numVerifyTokens steps)[b]? =
      some (batch[b].treeInput numVerifyTokens steps) := by
    rw [List.getElem?_map, List.getElem?_eq_getElem hb, Option.map_some]
  have htree : treeAt batch numVerifyTokens steps b =
      (batch[b].selection numVerifyTokens steps).tree := by
    unfold treeAt
    rw [List.getElem?_eq_getElem hb]
    rfl
  rw [htree]
  apply Selection.encodes
  · show numVerifyTokens = (batch[b].treeInput numVerifyTokens steps).selectedIndex.length + 1
    unfold Drafting.treeInput
    rw [length_selectedIndex hcount]
    omega
  · intro i c hc
    unfold kernelInput
    dsimp only
    rw [hget, Option.map_some, Option.getD_some, List.getD_eq_getElem?_getD]
    have hsel : (batch[b].treeInput numVerifyTokens steps).selectedIndex[i]? = some c := hc
    rw [hsel, Option.getD_some]
  · intro c hc
    unfold kernelInput
    dsimp only
    rw [hget, Option.map_some, Option.getD_some]
    exact parentList_spec hc

/-- The mask is as long as the parts of all requests. -/
theorem seqTreeIdx_kernelInput {topk : Nat} (batch : List (Drafting R topk))
    (numVerifyTokens steps topk' maxContextLen : Nat) :
    (kernelInput (batch.map fun d => d.treeInput numVerifyTokens steps)
        (batch.map Drafting.seqLen) (sumSeqLens (batch.map Drafting.seqLen)) numVerifyTokens topk'
        maxContextLen .fullMask).seqTreeIdx batch.length =
      (kernelInput (batch.map fun d => d.treeInput numVerifyTokens steps)
        (batch.map Drafting.seqLen) (sumSeqLens (batch.map Drafting.seqLen)) numVerifyTokens topk'
        maxContextLen .fullMask).treeMaskSize := by
  rw [KernelInput.seqTreeIdx_eq_sum rfl]
  unfold kernelInput
  dsimp only
  rw [sumSeqLens_eq, List.length_map, List.length_map, ← Finset.mul_sum, Finset.sum_add_distrib,
    Finset.sum_const, Finset.card_range, smul_eq_mul]
  ring

/-- The arrays of a batch encode the tree of each request. -/
theorem encodesTree_of_lt {topk numVerifyTokens steps b : Nat}
    (batch : List (Drafting R topk)) (maxContextLen : Nat) (out : TreeOutput)
    (hverify : 0 < numVerifyTokens)
    (hcount : numVerifyTokens - 1 ≤ candidateCount topk steps) (hb : b < batch.length) :
    EncodesTree (batch.map Drafting.seqLen) numVerifyTokens (treeAt batch numVerifyTokens steps b) b
      (buildEagleTreeStructure (batch.map fun d => d.treeInput numVerifyTokens steps)
        (batch.map Drafting.seqLen) (sumSeqLens (batch.map Drafting.seqLen)) numVerifyTokens topk
        maxContextLen .fullMask out) := by
  let seqLens := batch.map Drafting.seqLen
  let input := kernelInput (batch.map fun d => d.treeInput numVerifyTokens steps) seqLens
    (sumSeqLens seqLens) numVerifyTokens topk maxContextLen .fullMask
  have hencodes : ∀ b' < batch.length,
      KernelInput.Encodes input b' (treeAt batch numVerifyTokens steps b') :=
    fun b' hb' => encodes_kernelInput batch maxContextLen hverify hcount hb'
  have hsize : input.seqTreeIdx batch.length ≤ input.treeMaskSize :=
    (seqTreeIdx_kernelInput batch numVerifyTokens steps topk maxContextLen).le
  have hbuilt := KernelInput.built_buildTrees rfl hverify hencodes hsize out
  have hout : buildEagleTreeStructure (batch.map fun d => d.treeInput numVerifyTokens steps)
      seqLens (sumSeqLens seqLens) numVerifyTokens topk maxContextLen .fullMask out =
        input.buildTrees batch.length out := by
    unfold buildEagleTreeStructure
    rw [List.length_map]
  rw [hout]
  constructor
  · exact (hbuilt.links b hb).index
  · intro t ht
    exact ⟨_, (hbuilt.links b hb).children t ht, KernelInput.nodup_childrenFrom _ _ _ _,
      fun u => KernelInput.mem_childrenFrom_iff (hencodes b hb)⟩
  · exact hbuilt.positions b hb
  · intro t ht col hcol
    have hrow := hbuilt.row rfl hsize hb ht hcol
    unfold KernelInput.rowStart at hrow
    rw [KernelInput.seqTreeIdx_eq_sum rfl] at hrow
    exact hrow

/-- The selected candidates contain the parent of each of them, and the arrays encode the
tree of each request. -/
theorem buildEagleTreeStructure_encodes {topk numVerifyTokens steps : Nat}
    (batch : List (Drafting R topk)) (maxContextLen : Nat) (out : TreeOutput)
    (hverify : 0 < numVerifyTokens)
    (hcount : numVerifyTokens - 1 ≤ candidateCount topk steps) :
    (∀ d ∈ batch, ∀ c ∈ (d.treeInput numVerifyTokens steps).selectedIndex,
      ∀ p, parentOf d.draft topk d.empty c = some p →
        p ∈ (d.treeInput numVerifyTokens steps).selectedIndex) ∧
    ∀ (b : Nat) (hb : b < batch.length),
      EncodesTree (batch.map Drafting.seqLen) numVerifyTokens (batch[b].tree numVerifyTokens steps)
        b
        (buildEagleTreeStructure (batch.map fun d => d.treeInput numVerifyTokens steps)
          (batch.map Drafting.seqLen) (sumSeqLens (batch.map Drafting.seqLen)) numVerifyTokens topk
          maxContextLen .fullMask out) := by
  refine ⟨fun d _ c hc p hp => parentOf_mem_selectedIndex d.probabilities hc hp, fun b hb => ?_⟩
  have htree : treeAt batch numVerifyTokens steps b = batch[b].tree numVerifyTokens steps := by
    unfold treeAt
    rw [List.getElem?_eq_getElem hb]
  rw [← htree]
  exact encodesTree_of_lt batch maxContextLen out hverify hcount hb

section Runs

/-- A request in whose drafts every token has the probability a half. -/
def halves : Drafting Rat 2 where
  draft := fun i => ⟨fun _ _ => 1 / 2, fun j m => 4 * i + 2 * j + m⟩
  probabilities := fun _ _ _ _ _ => ⟨by norm_num, by norm_num⟩
  empty := ⟨fun _ => 0, ⟨fun _ _ => 0, fun _ => 0, fun _ => 0⟩⟩
  verifiedId := 99
  seqLen := 5

example : (halves.treeInput 5 3).selectedIndex = [0, 1, 2, 3] := by decide +kernel

example : (halves.treeInput 5 3).draftTokens = [99, 0, 1, 4, 5] := by decide +kernel

/-- Output arrays that nothing was written to. -/
def unwritten : TreeOutput where
  treeMask := fun _ => 0
  positions := fun _ => 0
  retrive := fun _ => ⟨fun _ => none, fun _ => none, fun _ => none⟩

theorem halves_encodes :
    EncodesTree [5, 5] 5 (halves.tree 5 3) 1
      (buildEagleTreeStructure [halves.treeInput 5 3, halves.treeInput 5 3] [5, 5] 10 5 2 8
        .fullMask unwritten) :=
  (buildEagleTreeStructure_encodes [halves, halves] 8 unwritten (by decide) (by decide)).2 1
    (by decide)

end Runs

end SglJax.Speculative
