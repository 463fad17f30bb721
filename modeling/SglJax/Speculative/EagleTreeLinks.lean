import SglJax.Foundation.ParentTree
import SglJax.Speculative.EagleTree

/-! The links of the verify tree: from each node they lead through its children. -/
namespace SglJax.Speculative.KernelInput

/-- The tree that the candidates of a request stand for. -/
structure Encodes (input : KernelInput) (bid : Nat) (T : ParentTree) : Prop where
  root : T.parent 0 = none
  outside : ∀ t, input.draftTokenNum ≤ t → T.parent t = none
  parent : ∀ t, 0 < t → t < input.draftTokenNum →
    (input.parentTbIdx bid (t - 1) = 0 ∧ T.parent t = some 0) ∨
      (0 < input.parentTbIdx bid (t - 1) ∧
        ∃ pos, input.searchParent bid (t - 1) = some pos ∧ T.parent t = some (pos + 1))

variable {input : KernelInput} {bid : Nat} {T : ParentTree} {row : Retrive} {i p t : Nat}

theorem Encodes.parent_eq (h : Encodes input bid T) (hpos : 0 < t)
    (ht : t < input.draftTokenNum) : T.parent t = some (input.parentPosition bid t) := by
  unfold parentPosition
  rcases h.parent t hpos ht with ⟨hzero, hparent⟩ | ⟨hnonzero, pos, hsearch, hparent⟩
  · rw [if_neg (by omega), hparent]
  · rw [if_pos hnonzero, hsearch, hparent]

/-- The children of `p` among `count` nodes from `first` on. -/
def childrenFrom (T : ParentTree) (p first count : Nat) : List Nat :=
  (List.range' first count).filter fun t => T.parent t = some p

theorem le_of_mem_childrenFrom {first count : Nat} (h : t ∈ childrenFrom T p first count) :
    first ≤ t :=
  (List.mem_range'_1.mp (List.mem_of_mem_filter h)).1

theorem childrenFrom_cons (T : ParentTree) (p first count : Nat) :
    childrenFrom T p first (count + 1) =
      if T.parent first = some p then first :: childrenFrom T p (first + 1) count
      else childrenFrom T p (first + 1) count := by
  unfold childrenFrom
  rw [List.range'_succ, List.filter_cons]
  simp only [decide_eq_true_eq]

/-- The nodes behind `i` are linked, the others are not. -/
structure LinkedBehind (input : KernelInput) (T : ParentTree) (i : Nat) (row : Retrive) : Prop where
  links : ∀ p < input.draftTokenNum, Linked row.nextSibling (row.nextToken p)
    (childrenFrom T p (i + 1) (input.draftTokenNum - 1 - i))
  unlinked : ∀ u ≤ i, row.nextSibling u = none

theorem LinkedBehind.prependChild (count : Nat)
    (h : LinkedBehind input T (i + 1) row) (hparent : T.parent (i + 1) = some p)
    (hcount : input.draftTokenNum - 1 - i = count + 1) (hp : p < input.draftTokenNum) :
    LinkedBehind input T i (prependChild row (i + 1) p) := by
  have hrest : input.draftTokenNum - 1 - (i + 1) = count := by omega
  have hlinks := h.links
  rw [hrest] at hlinks
  have hfresh : ∀ q, ∀ u ∈ childrenFrom T q (i + 1 + 1) count, u ≠ i + 1 := by
    intro q u hu
    have := le_of_mem_childrenFrom hu
    omega
  unfold KernelInput.prependChild
  cases hnext : row.nextToken p with
  | none =>
    have hold := hlinks p hp
    rw [hnext] at hold
    constructor
    · intro q hq
      rw [hcount, childrenFrom_cons, hparent]
      dsimp only
      by_cases hqp : p = q
      · subst hqp
        rw [if_pos rfl, Function.update_self]
        refine .cons ?_
        rw [h.unlinked (i + 1) (le_refl _)]
        exact hold
      · rw [if_neg (by simpa using hqp), Function.update_of_ne (Ne.symm hqp)]
        exact hlinks q hq
    · intro u hu
      exact h.unlinked u (by omega)
  | some origin =>
    have hold := hlinks p hp
    rw [hnext] at hold
    constructor
    · intro q hq
      rw [hcount, childrenFrom_cons, hparent]
      dsimp only
      by_cases hqp : p = q
      · subst hqp
        rw [if_pos rfl, Function.update_self]
        refine .cons ?_
        rw [Function.update_self]
        exact hold.congr fun u hu => Function.update_of_ne (hfresh p u hu) _ _
      · rw [if_neg (by simpa using hqp), Function.update_of_ne (Ne.symm hqp)]
        exact (hlinks q hq).congr fun u hu => Function.update_of_ne (hfresh q u hu) _ _
    · intro u hu
      dsimp only
      rw [Function.update_of_ne (by omega)]
      exact h.unlinked u (by omega)

theorem LinkedBehind.linkNode (hT : Encodes input bid T) (hi : i + 1 < input.draftTokenNum)
    (h : LinkedBehind input T (i + 1) row) :
    LinkedBehind input T i (input.linkNode bid (i + 1) row) := by
  have hparent : T.parent (i + 1) = some (input.parentPosition bid (i + 1)) :=
    hT.parent_eq (Nat.succ_pos i) hi
  have hlt := T.parent_lt hparent
  have hlinked : LinkedBehind input T (i + 1) { row with
      index := Function.update row.index (i + 1) (some (bid * input.draftTokenNum + (i + 1))) } :=
    ⟨h.links, h.unlinked⟩
  unfold KernelInput.linkNode
  dsimp only
  rw [if_neg (by omega)]
  exact hlinked.prependChild (input.draftTokenNum - 1 - (i + 1)) hparent (by omega) (by omega)

theorem LinkedBehind.linkNodes (hT : Encodes input bid T) (hi : i < input.draftTokenNum)
    (h : LinkedBehind input T i row) : LinkedBehind input T 0 (input.linkNodes bid i row) := by
  induction i generalizing row with
  | zero => exact h
  | succ i ih => exact ih (by omega) (h.linkNode hT hi)

theorem linkedBehind_initRetrive (row : Retrive) (hn : 0 < input.draftTokenNum) :
    LinkedBehind input T (input.draftTokenNum - 1) (input.initRetrive row) := by
  have hnone : ∀ (links : Nat → Option Nat) u, u < input.draftTokenNum →
      setSlice 0 input.draftTokenNum (fun _ => none) links u = none :=
    fun links u hu => if_pos ⟨Nat.zero_le _, by omega⟩
  constructor
  · intro p hp
    rw [Nat.sub_self]
    unfold initRetrive
    dsimp only
    rw [hnone _ p hp]
    exact .nil
  · intro u hu
    exact hnone _ u (by omega)

/-! ### The row of a request -/

theorem prependChild_index (row : Retrive) (i p : Nat) :
    (prependChild row i p).index = row.index := by
  unfold prependChild
  split <;> rfl

theorem linkNode_index (input : KernelInput) (bid i : Nat) (row : Retrive) :
    (input.linkNode bid i row).index =
      Function.update row.index i (some (bid * input.draftTokenNum + i)) := by
  unfold linkNode
  dsimp only
  split
  · rfl
  · exact prependChild_index _ _ _

theorem linkNodes_index (input : KernelInput) (bid i : Nat) (row : Retrive) (t : Nat) :
    (input.linkNodes bid i row).index t =
      if 0 < t ∧ t ≤ i then some (bid * input.draftTokenNum + t) else row.index t := by
  induction i generalizing row with
  | zero =>
    rw [if_neg (by omega)]
    rfl
  | succ i ih =>
    unfold linkNodes
    rw [ih, linkNode_index]
    by_cases ht : t = i + 1
    · subst ht
      rw [if_neg (by omega), if_pos ⟨by omega, le_refl _⟩, Function.update_self]
    · rw [Function.update_of_ne ht]
      congr 1
      simp only [eq_iff_iff]
      omega

/-- What a row of the link arrays holds for a tree. -/
structure Links (input : KernelInput) (bid : Nat) (T : ParentTree) (row : Retrive) : Prop where
  index : ∀ t < input.draftTokenNum, row.index t = some (bid * input.draftTokenNum + t)
  children : ∀ p < input.draftTokenNum, Linked row.nextSibling (row.nextToken p)
    (childrenFrom T p 1 (input.draftTokenNum - 1))

theorem links_buildRetrive (hT : Encodes input bid T) (hn : 0 < input.draftTokenNum)
    (h : LinkedBehind input T (input.draftTokenNum - 1) row) :
    Links input bid T (input.buildRetrive bid row) := by
  constructor
  · intro t ht
    unfold buildRetrive
    dsimp only
    by_cases hzero : t = 0
    · rw [hzero, Function.update_self, Nat.add_zero]
    · rw [Function.update_of_ne hzero, linkNodes_index, if_pos ⟨by omega, by omega⟩]
  · exact (h.linkNodes hT (by omega)).links

/-- Every child of a node is in its list. -/
theorem mem_childrenFrom_iff (hT : Encodes input bid T) :
    t ∈ childrenFrom T p 1 (input.draftTokenNum - 1) ↔ T.parent t = some p := by
  unfold childrenFrom
  rw [List.mem_filter, List.mem_range'_1, decide_eq_true_eq]
  constructor
  · exact And.right
  · intro hparent
    refine ⟨⟨?_, ?_⟩, hparent⟩
    · have := T.parent_lt hparent
      omega
    · by_contra hout
      rw [hT.outside t (by omega)] at hparent
      cases hparent

theorem nodup_childrenFrom (T : ParentTree) (p first count : Nat) :
    (childrenFrom T p first count).Nodup :=
  (List.nodup_range').filter _

end SglJax.Speculative.KernelInput
