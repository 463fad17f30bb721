import SglJax.Speculative.EagleTreeLinks
import Mathlib.Algebra.BigOperators.Group.Finset.Basic
import Mathlib.Algebra.Order.BigOperators.Group.Finset
import Mathlib.Tactic.Ring

/-! The mask and the positions of the verify tree. Each program writes the part of the
mask that belongs to its request, row after row. -/
namespace SglJax.Speculative.KernelInput

variable {input : KernelInput} {bid : Nat} {T : ParentTree} {mask : Nat → Nat} {t idx : Nat}

/-- The value of a place of the mask. -/
structure Marked (value : Nat) (p : Prop) : Prop where
  one : p → value = 1
  zero : ¬ p → value = 0

theorem Marked.congr {value : Nat} {p q : Prop} (h : Marked value p) (hiff : p ↔ q) :
    Marked value q :=
  ⟨fun hq => h.one (hiff.mpr hq), fun hq => h.zero fun hp => hq (hiff.mp hp)⟩

/-! ### One row -/

theorem foldl_clear (start count : Nat) (mask : Nat → Nat) :
    (List.range count).foldl (fun mask i => setTreeMask (start + i) 1 0 mask) mask =
      setSlice start count (fun _ => 0) mask := by
  induction count with
  | zero =>
    funext idx
    exact (if_neg (by omega)).symm
  | succ count ih =>
    rw [List.range_succ, List.foldl_append, ih]
    funext idx
    simp only [List.foldl_cons, List.foldl_nil, setTreeMask, setSlice]
    split
    · rw [if_pos (by omega)]
    · split
      · rw [if_pos (by omega)]
      · rw [if_neg (by omega)]

/-- Before the ancestors are marked a row holds just the root. -/
theorem clearRow_apply {start u : Nat} (hu : u < input.draftTokenNum) :
    input.clearRow (start + 1) mask (start + u) = if u = 0 then 1 else 0 := by
  unfold clearRow
  rw [foldl_clear, Nat.add_sub_cancel]
  unfold setTreeMask setSlice
  by_cases hzero : u = 0
  · rw [if_neg (by omega), if_pos (by omega), if_pos hzero]
  · rw [if_pos (by omega), if_neg hzero]

theorem clearRow_of_out {start : Nat} (h : ∀ u < input.draftTokenNum, idx ≠ start + u)
    (hn : 0 < input.draftTokenNum) : input.clearRow (start + 1) mask idx = mask idx := by
  have hne : ∀ u, idx = start + u → input.draftTokenNum ≤ u := by
    intro u hidx
    by_contra hlt
    exact h u (by omega) hidx
  have hout : idx < start ∨ start + input.draftTokenNum ≤ idx := by
    by_contra hin
    have := hne (idx - start) (by omega)
    omega
  unfold clearRow
  rw [foldl_clear, Nat.add_sub_cancel]
  unfold setTreeMask setSlice
  rw [if_neg (by omega), if_neg (by omega)]

/-- The root is above every node. -/
theorem Encodes.above_zero (hT : Encodes input bid T) (ht : t < input.draftTokenNum) :
    T.Above 0 t := by
  induction t using Nat.strongRecOn with
  | ind t ih =>
    rcases Nat.eq_zero_or_pos t with rfl | hpos
    · exact ParentTree.Above.refl T 0
    · have hparent := hT.parent_eq hpos ht
      have hlt := T.parent_lt hparent
      exact (ParentTree.above_of_some hparent).mpr (.inr (ih _ hlt (by omega)))

/-- Tracing marks the nodes above the one it starts from, apart from the root, and counts
its depth. -/
theorem traceToRoot_spec {start fuel cur : Nat} (mask : Nat → Nat) (position : Nat)
    (hT : Encodes input bid T)
    (hcur : cur + 1 < input.draftTokenNum)
    (hsize : start + input.draftTokenNum ≤ input.treeMaskSize + 1)
    (hfuel : T.depth (cur + 1) ≤ fuel) :
    (input.traceToRoot bid start fuel cur mask position).2 = position + T.depth (cur + 1) ∧
      ∀ idx,
        ((∃ u, T.Above (u + 1) (cur + 1) ∧ idx = start + u) →
          (input.traceToRoot bid start fuel cur mask position).1 idx = 1) ∧
        ((¬ ∃ u, T.Above (u + 1) (cur + 1) ∧ idx = start + u) →
          (input.traceToRoot bid start fuel cur mask position).1 idx = mask idx) := by
  induction fuel generalizing cur mask position with
  | zero =>
    rcases hT.parent (cur + 1) (Nat.succ_pos _) hcur with ⟨_, h⟩ | ⟨_, pos, _, h⟩
    · rw [ParentTree.depth_of_some h] at hfuel
      omega
    · rw [ParentTree.depth_of_some h] at hfuel
      omega
  | succ fuel ih =>
    unfold traceToRoot
    rw [if_pos (show start + cur < input.treeMaskSize by omega)]
    dsimp only
    have hmark : setTreeMask (start + cur) 1 1 mask (start + cur) = 1 :=
      if_pos ⟨le_refl _, by omega⟩
    have hkeep : ∀ idx, idx ≠ start + cur → setTreeMask (start + cur) 1 1 mask idx = mask idx :=
      fun idx hne => if_neg (by omega)
    rcases hT.parent (cur + 1) (Nat.succ_pos _) hcur with ⟨hzero, h⟩ | ⟨hnonzero, pos, hsearch, h⟩
    · rw [Nat.add_sub_cancel] at hzero
      rw [if_pos hzero, ParentTree.depth_of_some h, ParentTree.depth_of_none hT.root]
      have habove : ∀ u, T.Above (u + 1) (cur + 1) ↔ u = cur := by
        intro u
        rw [ParentTree.above_of_some h, ParentTree.above_of_none hT.root]
        omega
      refine ⟨rfl, fun idx => ⟨?_, ?_⟩⟩
      · rintro ⟨u, hu, rfl⟩
        rw [(habove u).mp hu]
        exact hmark
      · intro hno
        exact hkeep idx fun hidx => hno ⟨cur, (habove cur).mpr rfl, hidx⟩
    · rw [Nat.add_sub_cancel] at hnonzero hsearch
      rw [if_neg (by omega), hsearch, Option.getD_some, ParentTree.depth_of_some h]
      have hlt := T.parent_lt h
      rw [ParentTree.depth_of_some h] at hfuel
      obtain ⟨hposition, hmask⟩ := ih (setTreeMask (start + cur) 1 1 mask) (position + 1)
        (show pos + 1 < input.draftTokenNum by omega) (by omega)
      refine ⟨by rw [hposition]; omega, fun idx => ⟨?_, ?_⟩⟩
      · rintro ⟨u, hu, rfl⟩
        by_cases hin : ∃ v, T.Above (v + 1) (pos + 1) ∧ start + u = start + v
        · exact (hmask _).1 hin
        · rw [(hmask _).2 hin]
          rcases (ParentTree.above_of_some h).mp hu with heq | habove
          · rw [Nat.succ.inj heq]
            exact hmark
          · exact absurd ⟨u, habove, rfl⟩ hin
      · intro hno
        have hin : ¬ ∃ v, T.Above (v + 1) (pos + 1) ∧ idx = start + v := by
          rintro ⟨v, hv, hidx⟩
          exact hno ⟨v, (ParentTree.above_of_some h).mpr (.inr hv), hidx⟩
        rw [(hmask idx).2 hin]
        exact hkeep idx fun hidx => hno ⟨cur, ParentTree.Above.refl T _, hidx⟩

/-! ### All rows of a request -/

/-- Where the row of a node begins. -/
def rowStart (input : KernelInput) (bid tid : Nat) : Nat :=
  input.seqTreeIdx bid + (input.verifiedSeqLen bid + input.draftTokenNum) * tid

theorem tokenTreeIdx_eq (hmode : input.mode = .fullMask) (bid tid : Nat) :
    input.tokenTreeIdx bid tid = input.rowStart bid tid + input.verifiedSeqLen bid + 1 := by
  unfold tokenTreeIdx rowStart
  rw [hmode]

/-- The place of the node `u` in the row of a node. -/
def place (input : KernelInput) (bid tid u : Nat) : Nat :=
  input.rowStart bid tid + input.verifiedSeqLen bid + u

theorem place_lt_rowStart {tid tid' u : Nat} (h : tid < tid') (hu : u < input.draftTokenNum) :
    input.place bid tid u < input.rowStart bid tid' := by
  have hle : (input.verifiedSeqLen bid + input.draftTokenNum) * (tid + 1) ≤
      (input.verifiedSeqLen bid + input.draftTokenNum) * tid' := Nat.mul_le_mul_left _ h
  rw [Nat.mul_add, Nat.mul_one] at hle
  unfold place rowStart
  omega

variable {out : TreeOutput} {tid : Nat}

/-- One node: its row of the mask and its position. -/
theorem buildTreeBody_spec (out : TreeOutput) (hmode : input.mode = .fullMask)
    (hT : Encodes input bid T)
    (htid : tid < input.draftTokenNum)
    (hsize : input.place bid tid input.draftTokenNum ≤ input.treeMaskSize) :
    (∀ u < input.draftTokenNum,
      Marked ((input.buildTreeBody bid out tid).treeMask (input.place bid tid u)) (T.Above u tid)) ∧
    (∀ idx, (∀ u < input.draftTokenNum, idx ≠ input.place bid tid u) →
      (input.buildTreeBody bid out tid).treeMask idx = out.treeMask idx) ∧
    (input.buildTreeBody bid out tid).positions =
      Function.update out.positions (bid * input.draftTokenNum + tid)
        (input.verifiedSeqLen bid + T.depth tid) := by
  have hstart := tokenTreeIdx_eq hmode bid tid
  have hn : 0 < input.draftTokenNum := by omega
  have hcleared : ∀ u < input.draftTokenNum,
      input.clearRow (input.tokenTreeIdx bid tid) out.treeMask (input.place bid tid u) =
        if u = 0 then 1 else 0 := by
    intro u hu
    rw [hstart]
    exact clearRow_apply hu
  have hkept : ∀ idx, (∀ u < input.draftTokenNum, idx ≠ input.place bid tid u) →
      input.clearRow (input.tokenTreeIdx bid tid) out.treeMask idx = out.treeMask idx := by
    intro idx hidx
    rw [hstart]
    exact clearRow_of_out hidx hn
  unfold buildTreeBody
  dsimp only
  cases tid with
  | zero =>
    rw [if_pos rfl]
    dsimp only
    refine ⟨fun u hu => ?_, hkept, ?_⟩
    · have habove : T.Above u 0 ↔ u = 0 := ParentTree.above_of_none hT.root
      rw [hcleared u hu]
      constructor
      · intro h
        rw [if_pos (habove.mp h)]
      · intro h
        rw [if_neg fun hzero => h (habove.mpr hzero)]
    · rw [ParentTree.depth_of_none hT.root, Nat.add_zero]
      rfl
  | succ cur =>
    rw [if_neg (Nat.succ_ne_zero cur)]
    have hfuel : T.depth (cur + 1) ≤ input.draftTokenNum :=
      (T.depth_le _).trans htid.le
    have hbound : input.tokenTreeIdx bid (cur + 1) + input.draftTokenNum ≤
        input.treeMaskSize + 1 := by
      unfold place at hsize
      rw [hstart]
      omega
    obtain ⟨hposition, hmask⟩ := traceToRoot_spec
      (input.clearRow (input.tokenTreeIdx bid (cur + 1)) out.treeMask) 0 hT htid hbound hfuel
    dsimp only
    rw [Nat.add_sub_cancel]
    refine ⟨fun u hu => ?_, fun idx hidx => ?_, ?_⟩
    · cases u with
      | zero =>
        have hno : ¬ ∃ v, T.Above (v + 1) (cur + 1) ∧
            input.place bid (cur + 1) 0 = input.tokenTreeIdx bid (cur + 1) + v := by
          rintro ⟨v, _, hv⟩
          unfold place at hv
          omega
        rw [(hmask _).2 hno, hcleared 0 hu, if_pos rfl]
        exact ⟨fun _ => rfl, fun h => absurd (hT.above_zero htid) h⟩
      | succ v =>
        have hplace : input.place bid (cur + 1) (v + 1) =
            input.tokenTreeIdx bid (cur + 1) + v := by
          unfold place
          omega
        constructor
        · intro h
          exact (hmask _).1 ⟨v, h, hplace⟩
        · intro h
          rw [(hmask _).2, hcleared _ hu, if_neg (Nat.succ_ne_zero v)]
          rintro ⟨w, hw, hidx⟩
          rw [hplace] at hidx
          exact h (Nat.add_left_cancel hidx ▸ hw)
    · have hno : ¬ ∃ v, T.Above (v + 1) (cur + 1) ∧
          idx = input.tokenTreeIdx bid (cur + 1) + v := by
        rintro ⟨v, hv, hplace⟩
        have hle := hv.le
        apply hidx (v + 1) (by omega)
        unfold place
        omega
      rw [(hmask idx).2 hno]
      exact hkept idx hidx
    · rw [hposition, Nat.zero_add, Nat.add_comm (T.depth (cur + 1))]

theorem buildTreeBody_retrive_of_ne {b : Nat} (hb : b ≠ bid) :
    (input.buildTreeBody bid out tid).retrive b = out.retrive b := by
  unfold buildTreeBody
  dsimp only
  split <;> exact Function.update_of_ne hb _ _

theorem buildTreeBody_retrive_zero (hT : Encodes input bid T) (hn : 0 < input.draftTokenNum)
    (h : LinkedBehind input T (input.draftTokenNum - 1) (out.retrive bid)) :
    Links input bid T ((input.buildTreeBody bid out 0).retrive bid) := by
  unfold buildTreeBody
  dsimp only
  rw [if_pos rfl]
  dsimp only
  rw [Function.update_self]
  exact links_buildRetrive hT hn ⟨h.links, h.unlinked⟩

theorem buildTreeBody_retrive_succ (h : Links input bid T (out.retrive bid)) :
    Links input bid T ((input.buildTreeBody bid out (tid + 1)).retrive bid) := by
  unfold buildTreeBody
  dsimp only
  rw [if_neg (Nat.succ_ne_zero tid)]
  dsimp only
  rw [Function.update_self]
  refine ⟨fun t ht => ?_, h.children⟩
  dsimp only
  by_cases heq : t = tid + 1
  · rw [heq, Function.update_self]
  · rw [Function.update_of_ne heq]
    exact h.index t ht

/-- The arrays after the first `count` nodes of a request. -/
structure Done (input : KernelInput) (bid : Nat) (T : ParentTree) (count : Nat)
    (start out : TreeOutput) : Prop where
  mask : ∀ t < count, ∀ u < input.draftTokenNum,
    Marked (out.treeMask (input.place bid t u)) (T.Above u t)
  maskKept : ∀ idx, (∀ t < count, ∀ u < input.draftTokenNum, idx ≠ input.place bid t u) →
    out.treeMask idx = start.treeMask idx
  positions : ∀ t < count, out.positions (bid * input.draftTokenNum + t) =
    input.verifiedSeqLen bid + T.depth t
  positionsKept : ∀ idx, (∀ t < count, idx ≠ bid * input.draftTokenNum + t) →
    out.positions idx = start.positions idx
  unlinked : count = 0 → out = start
  links : 0 < count → Links input bid T (out.retrive bid)
  linksKept : ∀ b ≠ bid, out.retrive b = start.retrive b

theorem place_lt_place {tid' u u' : Nat} (h : tid < tid') (hu : u < input.draftTokenNum) :
    input.place bid tid u < input.place bid tid' u' :=
  Nat.lt_of_lt_of_le (place_lt_rowStart h hu) (by unfold place; omega)

theorem Done.buildTreeBody {start : TreeOutput} {count : Nat} (hmode : input.mode = .fullMask)
    (hT : Encodes input bid T) (hcount : count < input.draftTokenNum)
    (hsize : input.rowStart bid input.draftTokenNum ≤ input.treeMaskSize)
    (hstart : LinkedBehind input T (input.draftTokenNum - 1) (start.retrive bid))
    (h : Done input bid T count start out) :
    Done input bid T (count + 1) start (input.buildTreeBody bid out count) := by
  have hrow : input.place bid count input.draftTokenNum ≤ input.treeMaskSize := by
    have hle : (input.verifiedSeqLen bid + input.draftTokenNum) * (count + 1) ≤
        (input.verifiedSeqLen bid + input.draftTokenNum) * input.draftTokenNum :=
      Nat.mul_le_mul_left _ hcount
    rw [Nat.mul_add, Nat.mul_one] at hle
    unfold place rowStart at *
    omega
  obtain ⟨hmask, hkept, hpositions⟩ := buildTreeBody_spec out hmode hT hcount hrow
  constructor
  · intro t ht u hu
    rcases Nat.lt_succ_iff_lt_or_eq.mp ht with hlt | rfl
    · rw [hkept]
      · exact h.mask t hlt u hu
      · intro u' _
        exact (place_lt_place hlt hu).ne
    · exact hmask u hu
  · intro idx hidx
    rw [hkept idx (hidx count (Nat.lt_succ_self _))]
    exact h.maskKept idx fun t ht => hidx t (Nat.lt_succ_of_lt ht)
  · intro t ht
    rw [hpositions]
    by_cases heq : t = count
    · rw [heq, Function.update_self]
    · rw [Function.update_of_ne (by omega)]
      exact h.positions t (by omega)
  · intro idx hidx
    rw [hpositions, Function.update_of_ne (hidx count (Nat.lt_succ_self _))]
    exact h.positionsKept idx fun t ht => hidx t (Nat.lt_succ_of_lt ht)
  · intro hzero
    omega
  · intro _
    cases count with
    | zero =>
      rw [h.unlinked rfl]
      exact buildTreeBody_retrive_zero hT hcount hstart
    | succ count => exact buildTreeBody_retrive_succ (h.links (Nat.succ_pos _))
  · intro b hb
    rw [buildTreeBody_retrive_of_ne hb]
    exact h.linksKept b hb

theorem done_foldl {start : TreeOutput} {count : Nat} (hmode : input.mode = .fullMask)
    (hT : Encodes input bid T) (hcount : count ≤ input.draftTokenNum)
    (hsize : input.rowStart bid input.draftTokenNum ≤ input.treeMaskSize)
    (hstart : LinkedBehind input T (input.draftTokenNum - 1) (start.retrive bid)) :
    Done input bid T count start
      ((List.range count).foldl (input.buildTreeBody bid) start) := by
  induction count with
  | zero =>
    exact ⟨fun t ht => absurd ht (Nat.not_lt_zero t), fun _ _ => rfl,
      fun t ht => absurd ht (Nat.not_lt_zero t), fun _ _ => rfl, fun _ => rfl,
      fun h => absurd h (Nat.lt_irrefl 0), fun _ _ => rfl⟩
  | succ count ih =>
    rw [List.range_succ, List.foldl_append]
    exact (ih (by omega)).buildTreeBody hmode hT hcount hsize hstart

/-- What the program of a request leaves. -/
theorem done_buildRequest (hmode : input.mode = .fullMask) (hT : Encodes input bid T)
    (hn : 0 < input.draftTokenNum)
    (hsize : input.rowStart bid input.draftTokenNum ≤ input.treeMaskSize) (out : TreeOutput) :
    Done input bid T input.draftTokenNum (input.initOutput bid out)
      (input.buildRequest out bid) := by
  apply done_foldl hmode hT (le_refl _) hsize
  unfold initOutput
  dsimp only
  rw [Function.update_self]
  exact linkedBehind_initRetrive _ hn

/-! ### All requests -/

theorem seqTreeIdx_succ (hmode : input.mode = .fullMask) (bid : Nat) :
    input.seqTreeIdx (bid + 1) = input.seqTreeIdx bid +
      input.draftTokenNum * (input.verifiedSeqLen bid + input.draftTokenNum) := by
  have hfold : ∀ count start, (List.range count).foldl
      (fun idx i => idx + input.verifiedSeqLen i * input.draftTokenNum) start =
        start + (Finset.range count).sum fun i => input.verifiedSeqLen i * input.draftTokenNum := by
    intro count start
    induction count with
    | zero => rfl
    | succ count ih =>
      rw [List.range_succ, List.foldl_append, ih, Finset.sum_range_succ, ← Nat.add_assoc]
      rfl
  unfold seqTreeIdx
  rw [hmode]
  dsimp only
  rw [hfold, hfold, Finset.sum_range_succ]
  ring

/-- A request's part of the mask lies behind those of the requests before it. -/
theorem seqTreeIdx_eq_sum (hmode : input.mode = .fullMask) (bid : Nat) :
    input.seqTreeIdx bid = (Finset.range bid).sum fun i =>
      input.draftTokenNum * (input.verifiedSeqLen i + input.draftTokenNum) := by
  induction bid with
  | zero =>
    unfold seqTreeIdx
    rw [hmode]
    simp
  | succ bid ih => rw [seqTreeIdx_succ hmode, ih, Finset.sum_range_succ]

theorem rowStart_end (hmode : input.mode = .fullMask) (bid : Nat) :
    input.rowStart bid input.draftTokenNum = input.seqTreeIdx (bid + 1) := by
  unfold rowStart
  rw [seqTreeIdx_succ hmode, Nat.mul_comm]

theorem seqTreeIdx_mono (hmode : input.mode = .fullMask) {b b' : Nat} (h : b ≤ b') :
    input.seqTreeIdx b ≤ input.seqTreeIdx b' := by
  rw [seqTreeIdx_eq_sum hmode, seqTreeIdx_eq_sum hmode]
  exact Finset.sum_le_sum_of_subset (Finset.range_subset_range.mpr h)

theorem seqTreeIdx_le_place (bid tid u : Nat) : input.seqTreeIdx bid ≤ input.place bid tid u := by
  unfold place rowStart
  omega

theorem place_lt_seqTreeIdx (hmode : input.mode = .fullMask) {b b' u : Nat} (h : b < b')
    (ht : t < input.draftTokenNum) (hu : u < input.draftTokenNum) :
    input.place b t u < input.seqTreeIdx b' := by
  have hrow : input.place b t u < input.rowStart b input.draftTokenNum := place_lt_rowStart ht hu
  rw [rowStart_end hmode] at hrow
  exact Nat.lt_of_lt_of_le hrow (seqTreeIdx_mono hmode h)

/-- The arrays after the programs of the first `count` requests. -/
structure Built (input : KernelInput) (trees : Nat → ParentTree) (count : Nat)
    (out : TreeOutput) : Prop where
  mask : ∀ b < count, ∀ t < input.draftTokenNum, ∀ u < input.draftTokenNum,
    Marked (out.treeMask (input.place b t u)) ((trees b).Above u t)
  ones : 0 < count → ∀ idx < input.treeMaskSize, (∀ b < count, ∀ t < input.draftTokenNum,
    ∀ u < input.draftTokenNum, idx ≠ input.place b t u) → out.treeMask idx = 1
  positions : ∀ b < count, ∀ t < input.draftTokenNum,
    out.positions (b * input.draftTokenNum + t) = input.verifiedSeqLen b + (trees b).depth t
  links : ∀ b < count, Links input b (trees b) (out.retrive b)

theorem initTreeMask_eq_one (mask : Nat → Nat) (h : idx < input.treeMaskSize) :
    input.initTreeMask mask idx = 1 :=
  if_pos ⟨Nat.zero_le _, by omega⟩

theorem Built.buildRequest {trees : Nat → ParentTree} {count : Nat}
    (hmode : input.mode = .fullMask) (hn : 0 < input.draftTokenNum)
    (hT : Encodes input count (trees count))
    (hsize : input.seqTreeIdx (count + 1) ≤ input.treeMaskSize)
    (h : Built input trees count out) :
    Built input trees (count + 1) (input.buildRequest out count) := by
  have hdone := done_buildRequest hmode hT hn (by rw [rowStart_end hmode]; exact hsize) out
  constructor
  · intro b hb t ht u hu
    rcases Nat.lt_succ_iff_lt_or_eq.mp hb with hlt | rfl
    · have hother : ∀ t' < input.draftTokenNum, ∀ u' < input.draftTokenNum,
          input.place b t u ≠ input.place count t' u' := fun t' _ u' _ =>
        (Nat.lt_of_lt_of_le (place_lt_seqTreeIdx hmode hlt ht hu) (seqTreeIdx_le_place _ _ _)).ne
      rw [hdone.maskKept _ hother]
      unfold initOutput
      dsimp only
      rw [if_neg (by omega)]
      exact h.mask b hlt t ht u hu
    · exact hdone.mask t ht u hu
  · intro _ idx hidx hother
    rw [hdone.maskKept idx (hother count (Nat.lt_succ_self _))]
    unfold initOutput
    dsimp only
    split
    · exact initTreeMask_eq_one _ hidx
    · exact h.ones (by omega) idx hidx fun b hb => hother b (Nat.lt_succ_of_lt hb)
  · intro b hb t ht
    rcases Nat.lt_succ_iff_lt_or_eq.mp hb with hlt | rfl
    · have hle : (b + 1) * input.draftTokenNum ≤ count * input.draftTokenNum :=
        Nat.mul_le_mul_right _ hlt
      rw [Nat.add_mul, Nat.one_mul] at hle
      rw [hdone.positionsKept _ fun t' _ => by omega]
      unfold initOutput
      dsimp only
      rw [setSlice_of_lt (by omega)]
      exact h.positions b hlt t ht
    · exact hdone.positions t ht
  · intro b hb
    rcases Nat.lt_succ_iff_lt_or_eq.mp hb with hlt | rfl
    · rw [hdone.linksKept b hlt.ne]
      unfold initOutput
      dsimp only
      rw [Function.update_of_ne hlt.ne]
      exact h.links b hlt
    · exact hdone.links hn

theorem built_buildTrees {trees : Nat → ParentTree} {bs : Nat} (hmode : input.mode = .fullMask)
    (hn : 0 < input.draftTokenNum) (hT : ∀ b < bs, Encodes input b (trees b))
    (hsize : input.seqTreeIdx bs ≤ input.treeMaskSize) (out : TreeOutput) :
    Built input trees bs (input.buildTrees bs out) := by
  unfold buildTrees
  induction bs with
  | zero =>
    exact ⟨fun b hb => absurd hb (Nat.not_lt_zero b), fun h => absurd h (Nat.lt_irrefl 0),
      fun b hb => absurd hb (Nat.not_lt_zero b), fun b hb => absurd hb (Nat.not_lt_zero b)⟩
  | succ bs ih =>
    have hle : input.seqTreeIdx bs ≤ input.seqTreeIdx (bs + 1) :=
      seqTreeIdx_mono hmode (Nat.le_succ bs)
    rw [List.range_succ, List.foldl_append]
    exact (ih (fun b hb => hT b (by omega)) (by omega)).buildRequest hmode hn (hT bs (by omega))
      hsize

/-- A row of the mask: ones for the sequence so far, and for the ancestors of the node. -/
theorem Built.row {trees : Nat → ParentTree} {bs b col : Nat} (hmode : input.mode = .fullMask)
    (hsize : input.seqTreeIdx bs ≤ input.treeMaskSize) (h : Built input trees bs out) (hb : b < bs)
    (ht : t < input.draftTokenNum) (hcol : col < input.verifiedSeqLen b + input.draftTokenNum) :
    Marked (out.treeMask (input.rowStart b t + col))
      (col < input.verifiedSeqLen b ∨
        ∃ u, col = input.verifiedSeqLen b + u ∧ (trees b).Above u t) := by
  have hn : 0 < input.draftTokenNum := by omega
  by_cases hprefix : col < input.verifiedSeqLen b
  · refine ⟨fun _ => ?_, fun hno => absurd (.inl hprefix) hno⟩
    have hbefore : ∀ u, input.rowStart b t + col < input.place b t u := by
      intro u
      unfold place
      omega
    have hend : input.rowStart b t + col < input.seqTreeIdx (b + 1) :=
      (hbefore 0).trans (place_lt_seqTreeIdx hmode (Nat.lt_succ_self b) ht hn)
    have hstart : input.seqTreeIdx b ≤ input.rowStart b t + col := by
      unfold rowStart
      omega
    have hall : input.seqTreeIdx (b + 1) ≤ input.seqTreeIdx bs := seqTreeIdx_mono hmode hb
    apply h.ones (by omega) _ (by omega)
    intro b' hb' t' ht' u' hu'
    rcases Nat.lt_trichotomy b' b with hlt | rfl | hlt
    · exact (Nat.lt_of_lt_of_le (place_lt_seqTreeIdx hmode hlt ht' hu') hstart).ne'
    · rcases Nat.lt_trichotomy t' t with hrow | rfl | hrow
      · exact (Nat.lt_of_lt_of_le (place_lt_rowStart hrow hu') (Nat.le_add_right _ _)).ne'
      · exact (hbefore u').ne
      · exact ((hbefore 0).trans (place_lt_place hrow hn)).ne
    · exact (Nat.lt_of_lt_of_le hend
        ((seqTreeIdx_mono hmode hlt).trans (seqTreeIdx_le_place _ _ _))).ne
  · have hu : col = input.verifiedSeqLen b + (col - input.verifiedSeqLen b) := by omega
    have hplace : input.rowStart b t + col =
        input.place b t (col - input.verifiedSeqLen b) := by
      unfold place
      omega
    rw [hplace]
    refine (h.mask b hb t ht _ (by omega)).congr ⟨fun habove => .inr ⟨_, hu, habove⟩, ?_⟩
    rintro (hlt | ⟨u, rfl, habove⟩)
    · exact absurd hlt hprefix
    · rw [Nat.add_sub_cancel_left]
      exact habove

end SglJax.Speculative.KernelInput
