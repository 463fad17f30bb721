import SglJax.Layers.GatedDeltaRuns

/-! The causal convolution before the gated delta rule. A channel's output mixes its last inputs;
the prefill gathers them out of the batch and the pool, the decoding keeps a rolling window. -/
namespace SglJax.Layers

open Foundation

/-- `activation`, where there is one -/
inductive ConvActivation where
  | silu
deriving DecidableEq, Repr

/-- The weights of a convolution over a token and the `width` tokens before it. -/
structure CausalConv (channels width : Nat) (K : Type) where
  weight : Fin channels → Fin (width + 1) → K
  bias : Option (Fin channels → K)
  activation : Option ConvActivation

abbrev ConvToken (channels : Nat) (K : Type) := Fin channels → K

/-- The last `width` tokens of a sequence, the newest one last. -/
abbrev ConvState (channels width : Nat) (K : Type) := Fin channels → Fin width → K

variable {K : Type} [Field K] {channels width : Nat}

/-- `state[..., jnp.clip(n, 0, width - 1)]` -/
def clipped (state : Fin width → K) (n : Nat) : K :=
  if h : min n (width - 1) < width then state ⟨min n (width - 1), h⟩ else 0

namespace CausalConv

variable (fns : ScalarFns K) (conv : CausalConv channels width K)

/-- The bias and the activation. -/
def finish (d : Fin channels) (y : K) : K :=
  let y := match conv.bias with
    | some bias => y + bias d
    | none => y
  match conv.activation with
  | some .silu => fns.silu y
  | none => y

/-- The states of the sequences of a batch. -/
def gather (table : List (ConvState channels width K)) (stateIndices : List Nat)
    (hasInitialState : Option (List Bool)) : List (ConvState channels width K) :=
  match hasInitialState with
  | some has => gatherStates table stateIndices has
  | none => stateIndices.map fun slot => table.getD slot 0

/-- What the prefill puts out at a place of the batch. -/
def prefillAt (x : List (ConvToken channels K)) (cuSeqlens : List Nat)
    (state : List (ConvState channels width K)) (t : Nat) : ConvToken channels K := fun d =>
  let seqIdx := min (searchsortedRight cuSeqlens t - 1) (cuSeqlens.length - 1 - 1)
  let start := cuSeqlens.getD seqIdx 0
  let pos := t - start
  conv.finish fns d (∑ o : Fin (width + 1),
    (if start + o ≤ t then x.getD (t - o) 0 d
      else clipped ((state.getD seqIdx 0) d) (width + pos - o)) * conv.weight d o.rev)

/-- The last tokens of a sequence of the batch. -/
def finalState (x : List (ConvToken channels K)) (cuSeqlens : List Nat)
    (state : List (ConvState channels width K)) (i : Nat) : ConvState channels width K := fun d j =>
  let start := cuSeqlens.getD i 0
  let seqLen := cuSeqlens.getD (i + 1) 0 - start
  if width ≤ seqLen + j then x.getD (start + (seqLen + j - width)) 0 d
  else clipped ((state.getD i 0) d) (seqLen + j)

/-- `jax_causal_conv1d_prefill`, over a pool -/
def jaxCausalConv1dPrefill (x : List (ConvToken channels K)) (cuSeqlens : List Nat)
    (convState : List (ConvState channels width K)) (stateIndices : List Nat)
    (hasInitialState : Option (List Bool)) (track : Option Track) :
    List (ConvToken channels K) × List (ConvState channels width K) :=
  let state := gather convState stateIndices hasInitialState
  let finals := (List.range (cuSeqlens.length - 1)).map (finalState x cuSeqlens state)
  ((List.range x.length).map (conv.prefillAt fns x cuSeqlens state),
    writeStates convState stateIndices track finals)

/-- A token enters the window of its sequence. -/
def updateStep (state : ConvState channels width K) (x : ConvToken channels K) :
    ConvState channels width K × ConvToken channels K :=
  let window : Fin channels → Fin (width + 1) → K := fun d => Fin.snoc (state d) (x d)
  (fun d j => window d j.succ,
    fun d => conv.finish fns d (∑ j, window d j * conv.weight d j))

/-- `jax_causal_conv1d_update` -/
def jaxCausalConv1dUpdate (x : List (ConvToken channels K))
    (convState : List (ConvState channels width K)) (stateIndices : List Nat)
    (hasInitialState : Option (List Bool)) (track : Option Track) :
    List (ConvToken channels K) × List (ConvState channels width K) :=
  let steps := (gather convState stateIndices hasInitialState).zipWith (conv.updateStep fns) x
  (steps.map Prod.snd, writeStates convState stateIndices track (steps.map Prod.fst))

/-- The window after tokens. -/
def windowAfter (state : ConvState channels width K) (xs : List (ConvToken channels K)) :
    ConvState channels width K :=
  xs.foldl (fun state x => (conv.updateStep fns state x).1) state

/-- The inputs of a channel, with those before the sequence. -/
def inputAt (state : ConvState channels width K) (xs : List (ConvToken channels K))
    (d : Fin channels) (n : Nat) : K :=
  if h : n < width then state d ⟨n, h⟩ else xs.getD (n - width) 0 d

section Window

variable {fns conv} {state : ConvState channels width K} {xs : List (ConvToken channels K)}

theorem windowAfter_take {r : Nat} (hr : r ≤ xs.length) (d : Fin channels) (j : Fin width) :
    conv.windowAfter fns state (xs.take r) d j = inputAt state xs d (r + j) := by
  induction r generalizing j with
  | zero =>
    rw [Nat.zero_add, inputAt, dif_pos j.isLt]
    rfl
  | succ r ih =>
    have hx := List.getElem?_eq_getElem (show r < xs.length from hr)
    unfold windowAfter
    rw [List.take_add_one, hx, Option.toList_some, List.foldl_append]
    show (Fin.snoc (conv.windowAfter fns state (xs.take r) d) (xs[r] d) : Fin (width + 1) → K)
      j.succ = _
    unfold Fin.snoc
    split
    · next hlt =>
      show conv.windowAfter fns state (xs.take r) d ⟨j + 1, hlt⟩ = _
      rw [ih (Nat.le_of_succ_le hr), Nat.add_right_comm r 1 j]
      rfl
    · next hge =>
      have hj : (j : Nat) + 1 = width := by
        have := j.isLt
        simp at hge
        omega
      have hplace : r + 1 + j - width = r := by omega
      rw [inputAt, dif_neg (by omega), hplace, List.getD_eq_getElem _ _ hr]
      rfl

/-- A token is put out from itself and the inputs before it. -/
theorem updateStep_take {r : Nat} {x : ConvToken channels K} (hx : xs[r]? = some x)
    (d : Fin channels) : (conv.updateStep fns (conv.windowAfter fns state (xs.take r)) x).2 d =
      conv.finish fns d (∑ j : Fin (width + 1), inputAt state xs d (r + j) * conv.weight d j) := by
  obtain ⟨hr, rfl⟩ := List.getElem?_eq_some_iff.mp hx
  unfold updateStep
  dsimp only
  congr 1
  apply Finset.sum_congr rfl
  intro j _
  congr 1
  unfold Fin.snoc
  split
  · next hlt => exact windowAfter_take hr.le d ⟨j, hlt⟩
  · next hge =>
    have hplace : r + (j : Nat) - width = r := by
      have := j.isLt
      omega
    rw [inputAt, dif_neg (by omega), hplace, List.getD_eq_getElem _ _ hr]
    rfl

theorem windowAfter_append {ys : List (ConvToken channels K)} :
    conv.windowAfter fns state (xs ++ ys) =
      conv.windowAfter fns (conv.windowAfter fns state xs) ys :=
  List.foldl_append

theorem clipped_of_lt {row : Fin width → K} {n : Nat} (hn : n < width) :
    clipped row n = row ⟨n, hn⟩ := by
  have hmin : min n (width - 1) = n := by omega
  unfold clipped
  simp only [hmin, dif_pos hn]

end Window

section Prefill

variable {fns conv} {x : List (ConvToken channels K)} {cu : List Nat} {b i r : Nat}
  {state : List (ConvState channels width K)} (h : Offsets cu b) (hi : i < b)
  (hx : cu.getD b 0 ≤ x.length)
include h hi hx

omit h hi hx in
/-- The tokens of a sequence, in the batch. -/
theorem getD_seq {n : Nat} (hn : n < cu.getD (i + 1) 0 - cu.getD i 0) :
    (seqOf x (fun i => cu.getD i 0) i).getD n 0 = x.getD (cu.getD i 0 + n) 0 := by
  rw [seqOf, List.getD_eq_getElem?_getD, List.getElem?_take_of_lt hn, List.getElem?_drop,
    ← List.getD_eq_getElem?_getD]

/-- The state that the prefill gathers is the window after the sequence. -/
theorem finalState_eq : finalState x cu state i = conv.windowAfter fns (state.getD i 0)
    (seqOf x (fun i => cu.getD i 0) i) := by
  have hmono := h.mono (show i ≤ i + 1 from Nat.le_succ i) hi
  have hstop := h.mono (show i + 1 ≤ b from hi) le_rfl
  have hlength : (seqOf x (fun i => cu.getD i 0) i).length =
      cu.getD (i + 1) 0 - cu.getD i 0 := by
    rw [seqOf, List.length_take, List.length_drop]
    omega
  funext d j
  have hwindow : conv.windowAfter fns (state.getD i 0) (List.take _ _) d j = _ :=
    windowAfter_take hlength.ge d j
  rw [List.take_of_length_le hlength.le] at hwindow
  rw [hwindow]
  unfold finalState inputAt
  dsimp only
  split
  · next hle =>
    have hj := j.isLt
    rw [dif_neg (not_lt.mpr hle), getD_seq (by omega)]
  · next hlt => rw [dif_pos (not_le.mp hlt), clipped_of_lt (not_le.mp hlt)]

theorem prefillAt_eq (hr : r < cu.getD (i + 1) 0 - cu.getD i 0) (d : Fin channels) :
    conv.prefillAt fns x cu state (cu.getD i 0 + r) d = conv.finish fns d
      (∑ j : Fin (width + 1), inputAt (state.getD i 0) (seqOf x (fun i => cu.getD i 0) i) d
        (r + j) * conv.weight d j) := by
  have hseq : min (searchsortedRight cu (cu.getD i 0 + r) - 1) (cu.length - 1 - 1) = i := by
    have hlen := h.length
    have htail := h.searchsortedRight_eq hi (Nat.le_add_right _ r) (by omega)
    have hcount (t : Nat) : searchsortedRight cu t = searchsortedRight cu.tail t + 1 := by
      obtain ⟨start, rest, rfl⟩ := List.exists_cons_of_length_pos (show 0 < cu.length by omega)
      have hstart : start = 0 := h.start
      subst hstart
      simp [searchsortedRight]
    rw [hcount, htail, Nat.add_sub_cancel]
    omega
  unfold prefillAt
  dsimp only
  rw [hseq, Nat.add_sub_cancel_left, ← Equiv.sum_comp Fin.revPerm]
  congr 1
  apply Finset.sum_congr rfl
  intro j _
  rw [Fin.revPerm_apply, Fin.rev_rev]
  congr 1
  have hj := j.isLt
  have hrev : (j.rev : Nat) = width - j := by
    rw [Fin.val_rev]
    omega
  unfold inputAt
  by_cases hlt : r + j < width
  · rw [if_neg (by omega), dif_pos hlt]
    have hplace : width + r - (j.rev : Nat) = r + j := by omega
    rw [hplace, clipped_of_lt hlt]
  · rw [if_pos (by omega), dif_neg hlt, getD_seq (by omega)]
    have hplace : cu.getD i 0 + r - (j.rev : Nat) = cu.getD i 0 + (r + j - width) := by omega
    rw [hplace]

end Prefill

/-- The last tokens of a request, with zeros before them. -/
def lastInputs (xs : List (ConvToken channels K)) : ConvState channels width K := fun d j =>
  inputAt (0 : ConvState channels width K) xs d (xs.length + j)

/-- The convolution of all tokens of a request, with zeros before them. -/
def stream (xs : List (ConvToken channels K)) (t : Nat) : ConvToken channels K := fun d =>
  conv.finish fns d (∑ j : Fin (width + 1),
    inputAt (0 : ConvState channels width K) xs d (t + j) * conv.weight d j)

section Stream

variable {fns conv} {xs ys : List (ConvToken channels K)}

/-- What the rolling window puts out is the convolution of all tokens. -/
theorem updateStep_stream {r : Nat} {x : ConvToken channels K} (hx : ys[r]? = some x) :
    (conv.updateStep fns
      (conv.windowAfter fns (conv.windowAfter fns 0 xs) (ys.take r)) x).2 =
        conv.stream fns (xs ++ ys) (xs.length + r) := by
  rw [← windowAfter_append, ← List.take_length_add_append]
  funext d
  apply updateStep_take
  rw [List.getElem?_append_right (Nat.le_add_right _ _), Nat.add_sub_cancel_left, hx]

end Stream

end CausalConv

/-- How a batch is convolved, and where its sequences stand. -/
inductive ConvMode where
  | prefill (cuSeqlens : List Nat)
  | update
deriving DecidableEq, Repr

/-- A batch as the convolution gets it. -/
structure ConvCall (channels : Nat) (K : Type) where
  mode : ConvMode
  tokens : List (ConvToken channels K)
  stateIndices : List Nat
  hasInitialState : List Bool
  track : Option Track

namespace ConvCall

/-- Where a sequence of a batch begins. -/
def offset (call : ConvCall channels K) : Nat → Nat :=
  match call.mode with
  | .prefill cu => fun i => cu.getD i 0
  | .update => id

/-- The tokens of a sequence of a batch. -/
def seq (call : ConvCall channels K) : Nat → List (ConvToken channels K) :=
  seqOf call.tokens call.offset

def slots (call : ConvCall channels K) : SlotCall (ConvToken channels K) :=
  ⟨call.stateIndices, call.hasInitialState, call.track, call.seq⟩

/-- The table and the outputs of a batch. -/
def run (fns : ScalarFns K) (conv : CausalConv channels width K)
    (table : List (ConvState channels width K)) (call : ConvCall channels K) :
    List (ConvState channels width K) × List (ConvToken channels K) :=
  match call.mode with
  | .prefill cu => (conv.jaxCausalConv1dPrefill fns call.tokens cu table call.stateIndices
      (some call.hasInitialState) call.track).swap
  | .update => (conv.jaxCausalConv1dUpdate fns call.tokens table call.stateIndices
      (some call.hasInitialState) call.track).swap

/-- The tokens are laid out for the convolution. -/
def LaidOut (call : ConvCall channels K) : Prop :=
  match call.mode with
  | .prefill cu => Offsets cu call.stateIndices.length ∧
      cu.getD call.stateIndices.length 0 ≤ call.tokens.length
  | .update => call.tokens.length = call.stateIndices.length

/-- A batch that the convolution may get. -/
structure Valid (size : Nat) (call : ConvCall channels K) : Prop where
  slots : call.slots.Valid size
  laidOut : call.LaidOut

/-- The state that a sequence starts from. -/
def initOf (table : List (ConvState channels width K)) (call : ConvCall channels K) (i : Nat) :
    ConvState channels width K :=
  (gatherStates table call.stateIndices call.hasInitialState).getD i 0

/-- What both ways do with a batch. -/
def Serves (fns : ScalarFns K) (conv : CausalConv channels width K)
    (table : List (ConvState channels width K)) (call : ConvCall channels K) : Prop :=
  (call.run fns conv table).1 = writeStates table call.stateIndices call.track
      ((List.range call.stateIndices.length).map fun i =>
        conv.windowAfter fns (call.initOf table i) (call.seq i)) ∧
    ∀ i < call.stateIndices.length, ∀ (r : Nat) x, (call.seq i)[r]? = some x →
      (call.run fns conv table).2[call.offset i + r]? = some
        (conv.updateStep fns (conv.windowAfter fns (call.initOf table i) ((call.seq i).take r)) x).2

section Runs

variable {fns : ScalarFns K} {conv : CausalConv channels width K}
  {table : List (ConvState channels width K)} {call : ConvCall channels K} {size : Nat}

section Serves

variable (hvalid : call.Valid size)
include hvalid

theorem serves_prefill {cu : List Nat} (hmode : call.mode = .prefill cu) :
    call.Serves fns conv table := by
  obtain ⟨h, hx⟩ : Offsets cu _ ∧ _ ≤ _ := by
    simpa only [LaidOut, hmode] using hvalid.laidOut
  have hcount : cu.length - 1 = call.stateIndices.length := by
    rw [h.length, Nat.add_sub_cancel]
  have hoffset : call.offset = fun i => cu.getD i 0 := by simp only [offset, hmode]
  have hrun : call.run fns conv table = (conv.jaxCausalConv1dPrefill fns call.tokens cu table
      call.stateIndices (some call.hasInitialState) call.track).swap := by
    simp only [run, hmode]
  unfold Serves
  simp only [seq, hoffset, hrun]
  constructor
  · show writeStates _ _ _ (List.map _ (List.range (cu.length - 1))) = _
    rw [hcount]
    congr 1
    apply List.map_congr_left
    intro i hi
    exact CausalConv.finalState_eq h (List.mem_range.mp hi) hx
  · intro i hi r x hplace
    obtain ⟨hr, htoken⟩ := seqOf_place hplace
    have hlt := (List.getElem?_eq_some_iff.mp htoken).1
    show (List.map _ (List.range call.tokens.length))[_]? = _
    rw [List.getElem?_map, List.getElem?_range hlt, Option.map_some]
    congr 1
    funext d
    rw [CausalConv.prefillAt_eq h hi hx hr, CausalConv.updateStep_take hplace]
    rfl

theorem serves_update (hmode : call.mode = .update) : call.Serves fns conv table := by
  have htokens : call.tokens.length = call.stateIndices.length := by
    simpa only [LaidOut, hmode] using hvalid.laidOut
  have hinit : (gatherStates table call.stateIndices call.hasInitialState).length =
      call.stateIndices.length :=
    SlotCall.length_gatherStates hvalid.slots
  have hoffset : call.offset = id := by simp only [offset, hmode]
  have hrun : call.run fns conv table = (conv.jaxCausalConv1dUpdate fns call.tokens table
      call.stateIndices (some call.hasInitialState) call.track).swap := by
    simp only [run, hmode]
  obtain ⟨hstates, houts⟩ := zipWith_step_spec (conv.updateStep fns) hinit htokens
  unfold Serves
  simp only [seq, hoffset, hrun]
  constructor
  · show writeStates _ _ _ (List.map Prod.fst (List.zipWith _ (gatherStates _ _ _) _)) = _
    rw [hstates]
    rfl
  · exact houts

theorem conv_serves : call.Serves fns conv table := by
  cases hmode : call.mode with
  | prefill cu => exact serves_prefill hvalid hmode
  | update => exact serves_update hvalid hmode

end Serves

open SlotCall

variable (fns conv) in
/-- Over all batches, the outputs of a request are the convolution of all tokens that it gave, and
its slot holds the last of them. -/
theorem runs_convolve_histories {calls : List (ConvCall channels K)}
    (hvalid : ∀ call ∈ calls, call.Valid size) :
    let result := scan (run fns conv) (List.replicate size 0) calls
    (∀ slot < size,
        result.1[slot]? = some (CausalConv.lastInputs (histories (calls.map slots) slot))) ∧
      ∀ (n : Nat) call, calls[n]? = some call → ∀ i < call.stateIndices.length,
        ∀ r < (call.seq i).length,
          let before := call.slots.past (histories ((calls.take n).map slots)) i
          ∃ outs, result.2[n]? = some outs ∧ outs[call.offset i + r]? =
            some (conv.stream fns (before ++ call.seq i) (before.length + r)) := by
  intro result
  have hstart {call : ConvCall channels K} {table : List (ConvState channels width K)}
      {hist : Nat → List (ConvToken channels K)} {i : Nat} (hcall : call ∈ calls)
      (hlength : table.length = size) (hholds : Holds (conv.windowAfter fns 0) table hist)
      (hi : i < call.stateIndices.length) :
      call.initOf table i = conv.windowAfter fns 0 (call.slots.past hist i) := by
    have hslots : call.slots.Valid table.length := hlength ▸ (hvalid call hcall).slots
    exact gatherStates_eq hslots rfl hholds hi
  obtain ⟨hend, houts⟩ := run_histories (conv.windowAfter fns 0) slots (run fns conv) rfl
    (fun call hcall => (hvalid call hcall).slots) (by
      intro call hcall table hist hlength hholds
      rw [(conv_serves (hvalid call hcall)).1]
      congr 1
      apply List.map_congr_left
      intro i hi
      rw [hstart hcall hlength hholds (List.mem_range.mp hi)]
      exact CausalConv.windowAfter_append.symm)
  constructor
  · intro slot hslot
    rw [hend slot hslot]
    congr 1
    funext d j
    rw [CausalConv.lastInputs, ← CausalConv.windowAfter_take le_rfl, List.take_length]
  · intro n call hcall i hi r hr before
    obtain ⟨table, hlength, hholds, hout⟩ := houts n call hcall
    have hmem := List.mem_of_getElem? hcall
    have hx := List.getElem?_eq_getElem hr
    refine ⟨_, hout, ?_⟩
    rw [(conv_serves (hvalid call hmem)).2 i hi r _ hx, hstart hmem hlength hholds hi,
      CausalConv.updateStep_stream hx]

end Runs

section Example

def rampInput (n : Nat) : ConvToken 1 ℝ := fun _ => n

/-- One channel with two tokens of memory. -/
def rampConv : CausalConv 1 2 ℝ :=
  { weight := fun _ j => j + 1, bias := none, activation := some .silu }

/-- Two requests begin, the first one goes on, and both get a token. The first request's inputs are
kept in slot 3 too. -/
def twoRequestConvs : List (ConvCall 1 ℝ) :=
  [{ mode := .prefill [0, 2, 3]
     tokens := [rampInput 0, rampInput 1, rampInput 2]
     stateIndices := [1, 2], hasInitialState := [false, false], track := none },
   { mode := .prefill [0, 1]
     tokens := [rampInput 3]
     stateIndices := [1], hasInitialState := [true], track := none },
   { mode := .update
     tokens := [rampInput 4, rampInput 5]
     stateIndices := [2, 1], hasInitialState := [true, true]
     track := some ⟨[0, 3], [false, true]⟩ }]

theorem twoRequests_convolved :
    let result := scan (run realFns rampConv) (List.replicate 4 0) twoRequestConvs
    let first := [rampInput 0, rampInput 1, rampInput 3, rampInput 5]
    result.1[3]? = some (CausalConv.lastInputs first) ∧
      ∃ outs, result.2[2]? = some outs ∧ outs[1]? = some (rampConv.stream realFns first 3) := by
  intro result first
  have hvalid : ∀ call ∈ twoRequestConvs, call.Valid 4 := by
    intro call hcall
    simp only [twoRequestConvs, List.mem_cons, List.not_mem_nil, or_false] at hcall
    rcases hcall with rfl | rfl | rfl
    · exact
        { slots := ⟨rfl, .of_nodup (by decide), by decide, by simp [slots]⟩
          laidOut := ⟨⟨rfl, rfl, by decide⟩, by decide⟩ }
    · exact
        { slots := ⟨rfl, .of_nodup (by decide), by decide, by simp [slots]⟩
          laidOut := ⟨⟨rfl, rfl, by decide⟩, by decide⟩ }
    · refine
        { slots := ⟨rfl, .of_nodup (by decide), by decide, ?_⟩
          laidOut := rfl }
      rintro track hmem
      cases hmem
      exact ⟨.of_nodup (by decide), rfl⟩
  obtain ⟨hslots, houts⟩ := runs_convolve_histories realFns rampConv hvalid
  exact ⟨hslots 3 (by decide), houts 2 _ rfl 1 (by decide) 0 (by decide)⟩

end Example

end ConvCall

end SglJax.Layers
