import Mathlib.Analysis.SpecialFunctions.Log.Basic
import SglJax.Layers.GatedDeltaBatch
import SglJax.Layers.SlotHistories

/-! The chunked gated delta rule is the one that goes token by token. Requests may so come in
whichever batches, prefilled or decoded: their slots hold what their tokens give by themselves. -/
namespace SglJax.Layers

open Foundation

section Gentle

variable {K : Type} [Field K] [LinearOrder K] [IsStrictOrderedRing K] {shape : GdnShape}

/-- Where the gates only decay, the whole chunk decays most. -/
theorem unclamped_of_total {dK dV bt : Nat} {x : Nat → HeadToken dK dV K}
    (hg : ∀ s, (x s).g ≤ 0) (htotal : expFloor ≤ gammaBefore x bt) : Unclamped x bt := by
  have hanti : Antitone (gammaBefore x) := by
    apply antitone_nat_of_succ_le
    intro t
    rw [gammaBefore_succ]
    linarith [hg t]
  intro i hi
  have hstart : gammaBefore x (i + 1) ≤ gammaBefore x 0 := hanti (Nat.zero_le (i + 1))
  have hzero : gammaBefore x 0 = 0 := Finset.sum_range_zero _
  have hend := hanti (show i + 1 ≤ bt from hi)
  constructor
  · exact htotal.trans hend
  · linarith

/-- What holds of the padding and of all tokens of a batch holds in the aligned layout. -/
theorem alignSeqsGdn_forall {α : Type} [Zero α] {p : α → Prop} {xs : List α} (hzero : p 0)
    (hxs : ∀ x ∈ xs, p x) (cu : List Nat) (align j : Nat) :
    p ((alignSeqsGdn xs cu align).getD j 0) := by
  by_cases hj : j < (alignSeqsGdn xs cu align).length
  · rw [List.getD_eq_getElem _ _ hj]
    simp only [alignSeqsGdn, List.getElem_map]
    split
    · next hsrc =>
      rw [List.getD_eq_getElem _ _ hsrc]
      exact hxs _ (List.getElem_mem hsrc)
    · exact hzero
  · rw [List.getD_eq_default _ _ (not_lt.mp hj)]
    exact hzero

/-- Gates that a whole chunk can have without going below the smallest exponent. -/
theorem gentleBatch_of_gates {xs : List (GdnHeads shape K)} {bt : Nat} {lo : K} (hlo : lo ≤ 0)
    (hfloor : expFloor ≤ bt * lo) (hg : ∀ x ∈ xs, ∀ head, lo ≤ (x head).g ∧ (x head).g ≤ 0)
    (cu : List Nat) : GentleBatch xs cu bt := by
  intro c head
  have hgates (r : Nat) : lo ≤ (chunkTokens (alignSeqsGdn xs cu bt) bt c head r).g ∧
      (chunkTokens (alignSeqsGdn xs cu bt) bt c head r).g ≤ 0 :=
    alignSeqsGdn_forall (p := fun x : GdnHeads shape K => ∀ head, lo ≤ (x head).g ∧ (x head).g ≤ 0)
      (fun _ => ⟨hlo, le_rfl⟩) hg cu bt (c * bt + r) head
  apply unclamped_of_total fun r => (hgates r).2
  have hsum := Finset.card_nsmul_le_sum (Finset.range bt)
    (fun r => (chunkTokens (alignSeqsGdn xs cu bt) bt c head r).g) lo fun r _ => (hgates r).1
  rw [Finset.card_range, nsmul_eq_mul] at hsum
  exact hfloor.trans hsum

end Gentle

section Agree

variable {K : Type} [Field K] [LinearOrder K] {fns : ScalarFns K} {shape : GdnShape}
  {weights : GdnWeights shape K} {tokens : List (GdnToken shape K)}
  {table : List (GdnState shape K)} {cu stateIndices : List Nat} {has : List Bool}
  {track : Option Track} {numBlocks : Nat}

/-- Back from the aligned layout, every token of a sequence has its own output. -/
theorem getElem?_unalignOutputGdn {α : Type} [Zero α] {aligned : List α} {b i t tOut : Nat}
    (h : Offsets cu b) {alignedCu : List Nat} (hi : i < b) (hle : cu.getD i 0 ≤ t)
    (hlt : t < cu.getD (i + 1) 0) (hout : t < tOut) :
    (unalignOutputGdn aligned cu alignedCu tOut)[t]? =
      some (aligned.getD (alignedCu.getD i 0 + (t - cu.getD i 0)) 0) := by
  have hb : cu.length - 1 = b := by rw [h.length, Nat.add_sub_cancel]
  have hstop := h.mono (show i + 1 ≤ b from hi) le_rfl
  have hlens : ∀ k < b, cu.getD k 0 + (cu.tail.zipWith (· - ·) cu).getD k 0 ≤
      cu.getD (k + 1) 0 := by
    intro k hk
    have hmono := h.mono (show k ≤ k + 1 from Nat.le_succ k) hk
    rw [getD_segLens h hk]
    omega
  have hseg := getD_segLens h hi
  unfold unalignOutputGdn
  dsimp only
  rw [hb, List.getElem?_map, List.getElem?_range hout, Option.map_some, h.getLastD,
    if_pos (by omega), buildGather_own h hlens hi hle (by omega)]

/-- Chunk by chunk, a batch is what it is token by token. The outputs of its padding are zero. -/
theorem chunkedGatedDeltaRuleJax_eq_ragged (h : Offsets cu stateIndices.length)
    (hb : 0 < stateIndices.length) (hhas : has.length = stateIndices.length)
    (htokens : cu.getD stateIndices.length 0 ≤ tokens.length) (hblocks : 0 < numBlocks)
    (hlaws : fns.ExpLaws)
    (hgentle : GentleBatch (tokens.map (headToken fns weights)) cu (numBlocks * solveBlockSize)) :
    let ref := raggedGatedDeltaRuleRef fns weights tokens table cu stateIndices has track
    chunkedGatedDeltaRuleJax fns weights numBlocks tokens table cu stateIndices has track =
      (ref.1, ref.2.mapIdx fun t out => if t < cu.getLastD 0 then out else 0) := by
  have hinit : (gatherStates table stateIndices has).length = stateIndices.length := by
    simp [gatherStates, hhas]
  have hxs : cu.getD stateIndices.length 0 ≤ (tokens.map (headToken fns weights)).length := by
    rwa [List.length_map]
  obtain ⟨hstates, houts⟩ : (scan (raggedStep fns) (gatherStates table stateIndices has)
      (raggedTokens fns weights tokens cu stateIndices.length)).1 = _ ∧ _ :=
    raggedScan_spec h hlaws hinit htokens
  obtain ⟨hstates', houts'⟩ := chunkedScan_spec h hb hblocks hxs hlaws hgentle hinit
  intro ref
  have hlength : ref.2.length = tokens.length := by
    show (scan _ _ _).2.length = _
    rw [length_scan, raggedTokens, List.length_map, List.length_zipIdx]
  unfold chunkedGatedDeltaRuleJax
  dsimp only
  refine Prod.ext ?_ ?_
  · show writeStates table stateIndices track _ = writeStates table stateIndices track _
    rw [hstates, hstates']
  · apply List.ext_getElem?
    intro t
    rw [List.getElem?_mapIdx]
    by_cases hvalid : t < cu.getD stateIndices.length 0
    · obtain ⟨i, hi, hle, hlt⟩ := h.exists_segment hvalid
      rw [getElem?_unalignOutputGdn h hi hle hlt (hvalid.trans_le htokens),
        houts' i hi _ (by omega)]
      show _ = Option.map _ ((scan _ _ _).2[t]?)
      rw [houts i hi t hle hlt, Option.map_some, h.getLastD, if_pos hvalid]
    · rw [unalignOutputGdn, List.getElem?_map]
      by_cases ht : t < tokens.length
      · rw [List.getElem?_range ht, Option.map_some, List.getElem?_eq_getElem (hlength ▸ ht),
          Option.map_some, h.getLastD, if_neg hvalid, if_neg hvalid]
      · rw [List.getElem?_eq_none (by simpa using ht), List.getElem?_eq_none (by omega)]
        rfl

end Agree

section Example

/-- The functions on the reals -/
noncomputable def realFns : ScalarFns ℝ where
  exp := Real.exp
  sqrt := Real.sqrt
  sigmoid x := 1 / (1 + Real.exp (-x))
  softplus x := Real.log (1 + Real.exp x)
  silu x := x * (1 / (1 + Real.exp (-x)))

def oneHead : GdnShape := ⟨1, 1, 1, 1⟩

def rampToken (n : Nat) : GdnToken oneHead ℝ :=
  { mixedQkv := fun i => i + n, b := 1, a := 0 }

theorem rampToken_gate (n : Nat) (head : Fin oneHead.nV) :
    (-1 : ℝ) ≤ (headToken realFns ⟨0, 0⟩ (rampToken n) head).g ∧
      (headToken realFns ⟨0, 0⟩ (rampToken n) head).g ≤ 0 := by
  have hg : (headToken realFns ⟨0, 0⟩ (rampToken n) head).g = -Real.log 2 := by
    show -Real.exp 0 * Real.log (1 + Real.exp (0 + 0)) = _
    simp [one_add_one_eq_two]
  rw [hg]
  have hle := Real.log_le_sub_one_of_pos (show (0 : ℝ) < 2 by norm_num)
  have hpos := Real.log_nonneg (show (1 : ℝ) ≤ 2 by norm_num)
  constructor <;> linarith

theorem gentle_rampTokens (ns cu : List Nat) : GentleBatch
    ((ns.map rampToken).map (headToken realFns ⟨0, 0⟩)) cu (1 * solveBlockSize) := by
  apply gentleBatch_of_gates (show (-1 : ℝ) ≤ 0 by norm_num)
    (by norm_num [expFloor, solveBlockSize])
  intro x hx head
  obtain ⟨token, htoken, rfl⟩ := List.mem_map.mp hx
  obtain ⟨n, -, rfl⟩ := List.mem_map.mp htoken
  exact rampToken_gate n head

/-- Two sequences and a token of padding. The second sequence starts from its slot. -/
theorem twoSequences_agree :
    let tokens := [rampToken 0, rampToken 1, rampToken 2, rampToken 3]
    let one : GdnState oneHead ℝ := fun _ _ _ => 1
    let table : List (GdnState oneHead ℝ) := [0, one, one, one]
    let weights : GdnWeights oneHead ℝ := ⟨0, 0⟩
    let ref := raggedGatedDeltaRuleRef realFns weights tokens table [0, 1, 3] [2, 1]
      [false, true] (some ⟨[0, 3], [true, true]⟩)
    chunkedGatedDeltaRuleJax realFns weights 1 tokens table [0, 1, 3] [2, 1] [false, true]
        (some ⟨[0, 3], [true, true]⟩) =
      (ref.1, ref.2.mapIdx fun t out => if t < [0, 1, 3].getLastD 0 then out else 0) := by
  intro tokens one table weights
  exact chunkedGatedDeltaRuleJax_eq_ragged ⟨rfl, rfl, by decide⟩ (by decide) rfl (by decide)
    (by decide) ⟨Real.exp_zero, Real.exp_add⟩ (gentle_rampTokens [0, 1, 2, 3] _)

end Example

/-- How a batch is computed, and where its sequences stand. -/
inductive GdnMode where
  | ragged (cuSeqlens : List Nat)
  | chunked (numBlocks : Nat) (cuSeqlens : List Nat)
  | decode
deriving DecidableEq, Repr

/-- A batch as one of the kernels gets it. -/
structure GdnCall (shape : GdnShape) (K : Type) where
  mode : GdnMode
  tokens : List (GdnToken shape K)
  stateIndices : List Nat
  hasInitialState : List Bool
  track : Option Track

variable {K : Type} [Field K] {shape : GdnShape} (fns : ScalarFns K) (weights : GdnWeights shape K)

section Feed

/-- The state after tokens. -/
def feed (state : GdnState shape K) (xs : List (GdnToken shape K)) : GdnState shape K :=
  xs.foldl (fun state x => (tokenStep fns state (headToken fns weights x)).1) state

/-- What a token after others puts out. -/
def answer (state : GdnState shape K) (xs : List (GdnToken shape K)) (x : GdnToken shape K) :
    GdnOut shape K :=
  (tokenStep fns (feed fns weights state xs) (headToken fns weights x)).2

variable {fns weights}

theorem feed_append (state : GdnState shape K) (xs ys : List (GdnToken shape K)) :
    feed fns weights state (xs ++ ys) = feed fns weights (feed fns weights state xs) ys :=
  List.foldl_append

theorem answer_append (state : GdnState shape K) (xs ys : List (GdnToken shape K))
    (x : GdnToken shape K) : answer fns weights state (xs ++ ys) x =
      answer fns weights (feed fns weights state xs) ys x := by
  unfold answer
  rw [feed_append]

variable {tokens : List (GdnToken shape K)} {cu : List Nat} {init : List (GdnState shape K)}

theorem seqTokens_eq {i r : Nat} {x : GdnToken shape K}
    (hr : r < cu.getD (i + 1) 0 - cu.getD i 0) (hx : tokens[cu.getD i 0 + r]? = some x)
    (head : Fin shape.nV) :
    seqTokens (tokens.map (headToken fns weights)) cu i head r = headToken fns weights x head := by
  rw [seqTokens, if_pos hr, List.getD_eq_getElem?_getD, List.getElem?_map, hx]
  rfl

theorem seqState_eq_feed {i r : Nat} (hr : r ≤ cu.getD (i + 1) 0 - cu.getD i 0)
    (hstop : cu.getD (i + 1) 0 ≤ tokens.length) :
    seqState (tokens.map (headToken fns weights)) cu init fns i r =
      feed fns weights (init.getD i 0) ((tokens.drop (cu.getD i 0)).take r) := by
  induction r with
  | zero => rfl
  | succ r ih =>
    have hlt : cu.getD i 0 + r < tokens.length := by omega
    have hx := List.getElem?_eq_getElem hlt
    rw [List.take_add_one, List.getElem?_drop, hx, feed_append, ← ih (Nat.le_of_succ_le hr)]
    funext head
    show (gatedDeltaStep fns _ (seqTokens _ cu i head r)).1 = _
    rw [seqTokens_eq hr hx]
    rfl

theorem seqOut_eq_answer {i r : Nat} {x : GdnToken shape K}
    (hr : r < cu.getD (i + 1) 0 - cu.getD i 0) (hstop : cu.getD (i + 1) 0 ≤ tokens.length)
    (hx : tokens[cu.getD i 0 + r]? = some x) :
    seqOut (tokens.map (headToken fns weights)) cu init fns i r =
      answer fns weights (init.getD i 0) ((tokens.drop (cu.getD i 0)).take r) x := by
  unfold answer
  rw [← seqState_eq_feed hr.le hstop]
  funext head
  show (gatedDeltaStep fns _ (seqTokens _ cu i head r)).2 = _
  rw [seqTokens_eq hr hx]
  rfl

variable {b : Nat} (h : Offsets cu b) (htokens : cu.getD b 0 ≤ tokens.length)
include h htokens

theorem seqStates_eq_feed :
    seqStates (tokens.map (headToken fns weights)) cu init fns b
        (fun i => cu.getD (i + 1) 0 - cu.getD i 0) =
      (List.range b).map fun i => feed fns weights (init.getD i 0)
        (seqOf tokens (fun i => cu.getD i 0) i) := by
  apply List.map_congr_left
  intro i hi
  have hstop := h.mono (show i + 1 ≤ b from List.mem_range.mp hi) le_rfl
  exact seqState_eq_feed le_rfl (hstop.trans htokens)

theorem seqOut_place {i r : Nat} {x : GdnToken shape K} (hi : i < b)
    (hx : (seqOf tokens (fun i => cu.getD i 0) i)[r]? = some x) :
    seqOut (tokens.map (headToken fns weights)) cu init fns i r = answer fns weights
      (init.getD i 0) ((seqOf tokens (fun i => cu.getD i 0) i).take r) x := by
  obtain ⟨hr, hx⟩ := seqOf_place hx
  have hstop := h.mono (show i + 1 ≤ b from hi) le_rfl
  rw [seqOf, List.take_take, Nat.min_eq_left hr.le]
  exact seqOut_eq_answer hr (hstop.trans htokens) hx

end Feed

namespace GdnCall

/-- Where a sequence of a batch begins. -/
def offset (call : GdnCall shape K) : Nat → Nat :=
  match call.mode with
  | .ragged cu | .chunked _ cu => fun i => cu.getD i 0
  | .decode => id

/-- The tokens of a sequence of a batch. -/
def seq (call : GdnCall shape K) : Nat → List (GdnToken shape K) :=
  seqOf call.tokens call.offset

def slots (call : GdnCall shape K) : SlotCall (GdnToken shape K) :=
  ⟨call.stateIndices, call.hasInitialState, call.track, call.seq⟩

section Run

variable [LinearOrder K]

/-- The table and the outputs of a batch. -/
def run (table : List (GdnState shape K)) (call : GdnCall shape K) :
    List (GdnState shape K) × List (GdnOut shape K) :=
  match call.mode with
  | .ragged cu => raggedGatedDeltaRuleRef fns weights call.tokens table cu call.stateIndices
      call.hasInitialState call.track
  | .chunked numBlocks cu => chunkedGatedDeltaRuleJax fns weights numBlocks call.tokens table cu
      call.stateIndices call.hasInitialState call.track
  | .decode => decodeGatedDeltaRuleRef fns weights call.tokens table call.stateIndices
      (some call.hasInitialState) call.track

/-- The tokens are laid out for the kernel. -/
def LaidOut (call : GdnCall shape K) : Prop :=
  match call.mode with
  | .ragged cu => Offsets cu call.stateIndices.length ∧
      cu.getD call.stateIndices.length 0 ≤ call.tokens.length
  | .chunked numBlocks cu => Offsets cu call.stateIndices.length ∧
      cu.getD call.stateIndices.length 0 ≤ call.tokens.length ∧ 0 < numBlocks ∧
      GentleBatch (call.tokens.map (headToken fns weights)) cu (numBlocks * solveBlockSize)
  | .decode => call.tokens.length = call.stateIndices.length

/-- A batch that the kernels may get. -/
structure Valid (size : Nat) (call : GdnCall shape K) : Prop where
  slots : call.slots.Valid size
  nonempty : 0 < call.stateIndices.length
  laidOut : call.LaidOut fns weights

variable {fns weights} {table : List (GdnState shape K)} {call : GdnCall shape K}

/-- The state that a sequence starts from. -/
def initOf (table : List (GdnState shape K)) (call : GdnCall shape K) (i : Nat) :
    GdnState shape K :=
  (gatherStates table call.stateIndices call.hasInitialState).getD i 0

/-- What any of the kernels does with a batch. -/
def Serves (fns : ScalarFns K) (weights : GdnWeights shape K) (table : List (GdnState shape K))
    (call : GdnCall shape K) : Prop :=
  (call.run fns weights table).1 = writeStates table call.stateIndices call.track
      ((List.range call.stateIndices.length).map fun i =>
        feed fns weights (call.initOf table i) (call.seq i)) ∧
    ∀ i < call.stateIndices.length, ∀ (r : Nat) x, (call.seq i)[r]? = some x →
      (call.run fns weights table).2[call.offset i + r]? =
        some (answer fns weights (call.initOf table i) ((call.seq i).take r) x)

variable (hlaws : fns.ExpLaws) {size : Nat} (hvalid : call.Valid fns weights size)
include hlaws hvalid

theorem serves_ragged {cu : List Nat} (hmode : call.mode = .ragged cu) :
    call.Serves fns weights table := by
  obtain ⟨h, htokens⟩ : Offsets cu _ ∧ _ ≤ _ := by
    simpa only [LaidOut, hmode] using hvalid.laidOut
  have hinit : (gatherStates table call.stateIndices call.hasInitialState).length =
      call.stateIndices.length :=
    SlotCall.length_gatherStates hvalid.slots
  obtain ⟨hstates, houts⟩ : (scan (raggedStep fns)
      (gatherStates table call.stateIndices call.hasInitialState)
      (raggedTokens fns weights call.tokens cu call.stateIndices.length)).1 = _ ∧ _ :=
    raggedScan_spec h hlaws hinit htokens
  have hrun : call.run fns weights table = raggedGatedDeltaRuleRef fns weights call.tokens table cu
      call.stateIndices call.hasInitialState call.track := by
    simp only [run, hmode]
  have hoffset : call.offset = fun i => cu.getD i 0 := by simp only [offset, hmode]
  unfold Serves
  simp only [seq, hoffset, hrun]
  constructor
  · show writeStates _ _ _ (scan _ _ _).1 = _
    rw [hstates, seqStates_eq_feed h htokens]
    rfl
  · intro i hi r x hx
    have hr := (seqOf_place hx).1
    show (scan _ _ _).2[_]? = _
    rw [houts i hi _ (Nat.le_add_right _ _) (by omega), Nat.add_sub_cancel_left,
      seqOut_place h htokens hi hx]
    rfl

theorem serves_chunked {numBlocks : Nat} {cu : List Nat}
    (hmode : call.mode = .chunked numBlocks cu) : call.Serves fns weights table := by
  obtain ⟨h, htokens, hblocks, hgentle⟩ : Offsets cu _ ∧ _ ≤ _ ∧ _ := by
    simpa only [LaidOut, hmode] using hvalid.laidOut
  have hinit : (gatherStates table call.stateIndices call.hasInitialState).length =
      call.stateIndices.length :=
    SlotCall.length_gatherStates hvalid.slots
  have hxs : cu.getD call.stateIndices.length 0 ≤
      (call.tokens.map (headToken fns weights)).length := by
    rwa [List.length_map]
  obtain ⟨hstates, houts⟩ :=
    chunkedScan_spec h hvalid.nonempty hblocks hxs hlaws hgentle hinit
  have hrun : call.run fns weights table = chunkedGatedDeltaRuleJax fns weights numBlocks
      call.tokens table cu call.stateIndices call.hasInitialState call.track := by
    simp only [run, hmode]
  have hoffset : call.offset = fun i => cu.getD i 0 := by simp only [offset, hmode]
  unfold Serves
  simp only [seq, hoffset, hrun]
  constructor
  · show writeStates _ _ _ (scan _ _ _).1 = _
    rw [hstates, seqStates_eq_feed h htokens]
    rfl
  · intro i hi r x hx
    obtain ⟨hr, hplace⟩ := seqOf_place hx
    have hlt := (List.getElem?_eq_some_iff.mp hplace).1
    show (unalignOutputGdn _ _ _ _)[_]? = _
    rw [getElem?_unalignOutputGdn h hi (Nat.le_add_right _ _) (by omega) hlt,
      Nat.add_sub_cancel_left, houts i hi r hr, seqOut_place h htokens hi hx]
    rfl

omit hlaws in
theorem serves_decode (hmode : call.mode = .decode) : call.Serves fns weights table := by
  have htokens : call.tokens.length = call.stateIndices.length := by
    simpa only [LaidOut, hmode] using hvalid.laidOut
  have hinit : (gatherStates table call.stateIndices call.hasInitialState).length =
      call.stateIndices.length :=
    SlotCall.length_gatherStates hvalid.slots
  have hoffset : call.offset = id := by simp only [offset, hmode]
  have hrun : call.run fns weights table = decodeGatedDeltaRuleRef fns weights call.tokens table
      call.stateIndices (some call.hasInitialState) call.track := by
    simp only [run, hmode]
  obtain ⟨hstates, houts⟩ := zipWith_step_spec
    (fun s token => tokenStep fns s (headToken fns weights token)) hinit htokens
  unfold Serves
  simp only [seq, hoffset, hrun]
  constructor
  · show writeStates _ _ _ (List.map Prod.fst (List.zipWith _ _ _)) = _
    rw [hstates]
    rfl
  · exact houts

theorem serves : call.Serves fns weights table := by
  cases hmode : call.mode with
  | ragged cu => exact serves_ragged hlaws hvalid hmode
  | chunked numBlocks cu => exact serves_chunked hlaws hvalid hmode
  | decode => exact serves_decode hvalid hmode

end Run

section Runs

variable [LinearOrder K] {fns weights} {calls : List (GdnCall shape K)} {size : Nat}

open SlotCall

/-- Over all batches, a request's slot and its outputs are what its tokens give one after the
other, from zero: whichever kernels take them, however they are cut into batches, and whichever
other requests are in those. -/
theorem runs_answer_histories (hlaws : fns.ExpLaws)
    (hvalid : ∀ call ∈ calls, call.Valid fns weights size) :
    let result := scan (run fns weights) (List.replicate size 0) calls
    (∀ slot < size,
        result.1[slot]? = some (feed fns weights 0 (histories (calls.map slots) slot))) ∧
      ∀ (n : Nat) call, calls[n]? = some call → ∀ i < call.stateIndices.length,
        ∀ (r : Nat) x, (call.seq i)[r]? = some x →
          ∃ outs, result.2[n]? = some outs ∧ outs[call.offset i + r]? = some (answer fns weights 0
            (call.slots.past (histories ((calls.take n).map slots)) i ++ (call.seq i).take r)
            x) := by
  intro result
  have hstart {call : GdnCall shape K} {table : List (GdnState shape K)}
      {hist : Nat → List (GdnToken shape K)} {i : Nat} (hcall : call ∈ calls)
      (hlength : table.length = size) (hholds : Holds (feed fns weights 0) table hist)
      (hi : i < call.stateIndices.length) :
      call.initOf table i = feed fns weights 0 (call.slots.past hist i) := by
    have hslots : call.slots.Valid table.length := hlength ▸ (hvalid call hcall).slots
    exact gatherStates_eq hslots rfl hholds hi
  obtain ⟨hend, houts⟩ := run_histories (feed fns weights 0) slots (run fns weights) rfl
    (fun call hcall => (hvalid call hcall).slots) (by
      intro call hcall table hist hlength hholds
      rw [(serves hlaws (hvalid call hcall)).1]
      congr 1
      apply List.map_congr_left
      intro i hi
      rw [hstart hcall hlength hholds (List.mem_range.mp hi), feed_append]
      rfl)
  refine ⟨hend, fun n call hcall i hi r x hx => ?_⟩
  obtain ⟨table, hlength, hholds, hout⟩ := houts n call hcall
  have hmem := List.mem_of_getElem? hcall
  refine ⟨_, hout, ?_⟩
  rw [answer_append, ← hstart hmem hlength hholds hi]
  exact (serves hlaws (hvalid call hmem)).2 i hi r x hx

end Runs

section Example

/-- Two requests begin, the first one goes on, and both decode a token. The first request's state
is kept in slot 3 too. -/
noncomputable def twoRequestCalls : List (GdnCall oneHead ℝ) :=
  [{ mode := .chunked 1 [0, 2, 3]
     tokens := [rampToken 0, rampToken 1, rampToken 2]
     stateIndices := [1, 2], hasInitialState := [false, false], track := none },
   { mode := .ragged [0, 1]
     tokens := [rampToken 3]
     stateIndices := [1], hasInitialState := [true], track := none },
   { mode := .decode
     tokens := [rampToken 4, rampToken 5]
     stateIndices := [2, 1], hasInitialState := [true, true]
     track := some ⟨[0, 3], [false, true]⟩ }]

theorem twoRequests_alone :
    let weights : GdnWeights oneHead ℝ := ⟨0, 0⟩
    let result := scan (run realFns weights) (List.replicate 4 0) twoRequestCalls
    let first := feed realFns weights 0 [rampToken 0, rampToken 1, rampToken 3, rampToken 5]
    result.1[1]? = some first ∧ result.1[3]? = some first := by
  intro weights result first
  have hvalid : ∀ call ∈ twoRequestCalls, call.Valid realFns weights 4 := by
    intro call hcall
    simp only [twoRequestCalls, List.mem_cons, List.not_mem_nil, or_false] at hcall
    rcases hcall with rfl | rfl | rfl
    · exact
        { slots := ⟨rfl, .of_nodup (by decide), by decide, by simp [slots]⟩
          nonempty := by decide
          laidOut := ⟨⟨rfl, rfl, by decide⟩, by decide, by decide, gentle_rampTokens [0, 1, 2] _⟩ }
    · exact
        { slots := ⟨rfl, .of_nodup (by decide), by decide, by simp [slots]⟩
          nonempty := by decide
          laidOut := ⟨⟨rfl, rfl, by decide⟩, by decide⟩ }
    · refine
        { slots := ⟨rfl, .of_nodup (by decide), by decide, ?_⟩
          nonempty := by decide
          laidOut := rfl }
      rintro track hmem
      cases hmem
      exact ⟨.of_nodup (by decide), rfl⟩
  have hruns := (runs_answer_histories ⟨Real.exp_zero, Real.exp_add⟩ hvalid).1
  exact ⟨hruns 1 (by decide), hruns 3 (by decide)⟩

end Example

end GdnCall

end SglJax.Layers
