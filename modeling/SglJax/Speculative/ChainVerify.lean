import SglJax.Speculative.ChainInputs

/-! Greedy verification of chains: the loop that follows the links, and the closed form that
multiplies up the matches. Both accept the first tokens of the chain up to the first one the
target does not say. -/
namespace SglJax.Speculative

/-! ### The closed form -/

/-- `jnp.cumprod`, with the product of what comes before. -/
def cumprod : Nat → List Nat → List Nat
  | _, [] => []
  | product, x :: xs => product * x :: cumprod (product * x) xs

/-- `jnp.sum` -/
def sumOf (xs : List Nat) : Nat := xs.foldr (· + ·) 0

/-- What `dflash_greedy_verify` returns. -/
structure DflashVerified where
  acceptLensOut : Nat → Nat
  targetPredictFlat : Nat → Nat
  bonus : Nat → Nat
  acceptLenDraft : Nat → Nat

/-- `candidates[bid, 1:] == target_predict[bid, :-1]` -/
def dflashMatches (draftToken targetPredict : Nat → Nat) (draftTokenNum bid : Nat) : List Nat :=
  (List.range (draftTokenNum - 1)).map fun t =>
    if draftToken (bid * draftTokenNum + (t + 1)) = targetPredict (bid * draftTokenNum + t) then 1
    else 0

/-- `dflash_greedy_verify`, from the argmax of the target's logits on. -/
def dflashGreedyVerify (draftToken targetPredict : Nat → Nat) (draftTokenNum : Nat) :
    DflashVerified :=
  let acceptLenDraft := fun bid =>
    sumOf (cumprod 1 (dflashMatches draftToken targetPredict draftTokenNum bid))
  { acceptLensOut := fun bid => acceptLenDraft bid + 1
    targetPredictFlat := targetPredict
    bonus := fun bid => targetPredict (bid * draftTokenNum + acceptLenDraft bid)
    acceptLenDraft := acceptLenDraft }

/-- The accepted tokens of a request, then the bonus token. -/
def dflashTokens (draftToken : Nat → Nat) (draftTokenNum : Nat) (verified : DflashVerified)
    (bid : Nat) : List Nat :=
  ((List.range (verified.acceptLenDraft bid)).map fun t =>
    draftToken (bid * draftTokenNum + (t + 1))) ++ [verified.bonus bid]

/-! ### The loop -/

namespace VerifyInput

variable (input : VerifyInput) (targetPredict : Nat → Nat)

/-- The state before the loop, on an array of accepted indices that the caller gives. -/
def startState (bid : Nat) (out : VerifyOutput) : VerifyState where
  curIndex := 0
  lastAcceptedRetriveIdx := input.retriveIndex bid 0
  numAcceptedTokens := 0
  acceptIndex := Function.update (out.acceptIndex bid) 0 (some (input.retriveIndex bid 0))
  predicts := out.predicts

/-- `verify_tree_greedy` for one request. -/
def greedyRequest (fuel bid : Nat) (out : VerifyOutput) : Option VerifyOutput :=
  (input.verifyLoop targetPredict bid fuel input.specSteps (input.startState bid out)).map
    (finishState targetPredict bid out)

/-- `verify_tree_greedy`: the requests one after the other. -/
def greedyRequests (fuel : Nat) (out : VerifyOutput) : Nat → Option VerifyOutput
  | 0 => some out
  | bid + 1 => (greedyRequests fuel out bid).bind (input.greedyRequest targetPredict fuel bid)

end VerifyInput

/-- The tokens a verified request appends: the predictions at its accepted indices. -/
def acceptedTokens (out : VerifyOutput) (bid : Nat) : List (Option Nat) :=
  (List.range (out.acceptTokenNum bid + 1)).map fun j => (out.acceptIndex bid j).map out.predicts

/-! ### Where both stop -/

/-- The first `k` tokens behind the root are the target's, and the next one is not. -/
structure MatchLength (draftToken targetPredict : Nat → Nat) (n bid k : Nat) : Prop where
  lt : k < n
  accepted : ∀ t < k, draftToken (bid * n + (t + 1)) = targetPredict (bid * n + t)
  ends : k + 1 < n → draftToken (bid * n + (k + 1)) ≠ targetPredict (bid * n + k)

section matching

variable {draftToken targetPredict : Nat → Nat} {n bid k k' : Nat}

theorem MatchLength.unique (h : MatchLength draftToken targetPredict n bid k)
    (h' : MatchLength draftToken targetPredict n bid k') : k = k' := by
  rcases Nat.lt_trichotomy k k' with hlt | heq | hlt
  · exact absurd (h'.accepted k hlt) (h.ends (Nat.lt_of_le_of_lt hlt h'.lt))
  · exact heq
  · exact absurd (h.accepted k' hlt) (h'.ends (Nat.lt_of_le_of_lt hlt h.lt))

theorem sumOf_cumprod_zero (xs : List Nat) : sumOf (cumprod 0 xs) = 0 := by
  induction xs with
  | nil => rfl
  | cons x xs ih =>
    rw [cumprod, Nat.zero_mul]
    show 0 + sumOf (cumprod 0 xs) = 0
    rw [ih]

/-- The products of zeros and ones count the ones in front. -/
theorem sumOf_cumprod_one (p : Nat → Prop) [DecidablePred p] (first count : Nat) :
    ∃ k ≤ count,
      sumOf (cumprod 1 ((List.range' first count).map fun t => if p t then 1 else 0)) = k ∧
      (∀ t < k, p (first + t)) ∧ (k < count → ¬ p (first + k)) := by
  induction count generalizing first with
  | zero => exact ⟨0, le_refl 0, rfl, fun t ht => absurd ht (Nat.not_lt_zero t),
      fun h => absurd h (Nat.lt_irrefl 0)⟩
  | succ count ih =>
    rw [List.range'_succ, List.map_cons, cumprod, Nat.one_mul]
    by_cases hp : p first
    · obtain ⟨k, hle, hsum, haccepted, hends⟩ := ih (first + 1)
      refine ⟨k + 1, Nat.succ_le_succ hle, ?_, ?_, ?_⟩
      · rw [if_pos hp]
        show 1 + sumOf _ = _
        rw [hsum, Nat.add_comm]
      · intro t ht
        cases t with
        | zero => exact hp
        | succ t =>
          have := haccepted t (Nat.lt_of_succ_lt_succ ht)
          rwa [Nat.add_assoc, Nat.add_comm 1 t] at this
      · intro hlt
        have := hends (Nat.lt_of_succ_lt_succ hlt)
        rwa [Nat.add_assoc, Nat.add_comm 1 k] at this
    · refine ⟨0, Nat.zero_le _, ?_, fun t ht => absurd ht (Nat.not_lt_zero t), fun _ => hp⟩
      rw [if_neg hp]
      show 0 + sumOf _ = 0
      rw [sumOf_cumprod_zero]

theorem dflash_matchLength (hpos : 0 < n) (bid : Nat) :
    MatchLength draftToken targetPredict n bid
      ((dflashGreedyVerify draftToken targetPredict n).acceptLenDraft bid) := by
  obtain ⟨k, hle, hsum, haccepted, hends⟩ := sumOf_cumprod_one
    (fun t => draftToken (bid * n + (t + 1)) = targetPredict (bid * n + t)) 0 (n - 1)
  have hk : (dflashGreedyVerify draftToken targetPredict n).acceptLenDraft bid = k := by
    rw [← hsum, ← List.range_eq_range']
    rfl
  rw [hk]
  simp only [Nat.zero_add] at haccepted hends
  exact ⟨by omega, haccepted, fun hlt => hends (by omega)⟩

end matching

/-! ### The loop on a chain -/

/-- The links of a chain. -/
structure IsChain (input : VerifyInput) (bid : Nat) : Prop where
  index : ∀ t < input.draftTokenNum,
    (input.retrive bid).index t = some (bid * input.draftTokenNum + t)
  nextToken : ∀ t < input.draftTokenNum, (input.retrive bid).nextToken t =
    if t + 1 < input.draftTokenNum then some (t + 1) else none
  nextSibling : ∀ t < input.draftTokenNum, (input.retrive bid).nextSibling t = none

/-- The state of the loop once the first `k` tokens behind the root are accepted. -/
structure AtNode (input : VerifyInput) (targetPredict : Nat → Nat) (bid k : Nat)
    (start : Nat → Nat) (s : VerifyState) : Prop where
  lt : k < input.draftTokenNum
  cur : s.curIndex = k
  last : s.lastAcceptedRetriveIdx = bid * input.draftTokenNum + k
  count : s.numAcceptedTokens = k
  indices : ∀ j ≤ k, s.acceptIndex j = some (bid * input.draftTokenNum + j)
  accepted : ∀ t < k, input.draftToken (bid * input.draftTokenNum + (t + 1)) =
    targetPredict (bid * input.draftTokenNum + t)
  written : ∀ t < k, s.predicts (bid * input.draftTokenNum + t) =
    targetPredict (bid * input.draftTokenNum + t)
  kept : ∀ idx, (∀ t < k, idx ≠ bid * input.draftTokenNum + t) → s.predicts idx = start idx

section loop

variable {input : VerifyInput} {targetPredict : Nat → Nat} {bid k fuel : Nat}
  {start : Nat → Nat} {s : VerifyState}

theorem IsChain.retriveIndex (h : IsChain input bid) {t : Nat} (ht : t < input.draftTokenNum) :
    input.retriveIndex bid t = bid * input.draftTokenNum + t := by
  unfold VerifyInput.retriveIndex
  rw [h.index t ht, Option.getD_some]

/-- A node of a chain has no sibling to go on to. -/
theorem IsChain.walkSiblings (h : IsChain input bid) (target : Nat) {t : Nat}
    (ht : t < input.draftTokenNum) :
    input.walkSiblings bid target (fuel + 1) (some t) =
      if input.draftToken (bid * input.draftTokenNum + t) = target then some (some t)
      else some none := by
  unfold VerifyInput.walkSiblings
  rw [h.nextSibling t ht]
  cases fuel <;> rfl

theorem AtNode.accept (hchain : IsChain input bid) (h : AtNode input targetPredict bid k start s)
    (hnext : k + 1 < input.draftTokenNum)
    (htoken : input.draftToken (bid * input.draftTokenNum + (k + 1)) =
      targetPredict (bid * input.draftTokenNum + k)) :
    AtNode input targetPredict bid (k + 1) start
      (input.accept targetPredict bid (k + 1) s) where
  lt := hnext
  cur := rfl
  last := hchain.retriveIndex hnext
  count := by
    show s.numAcceptedTokens + 1 = k + 1
    rw [h.count]
  indices := by
    intro j hj
    unfold VerifyInput.accept
    dsimp only
    rw [h.count]
    by_cases heq : j = k + 1
    · rw [heq, Function.update_self, hchain.retriveIndex hnext]
    · rw [Function.update_of_ne heq]
      exact h.indices j (by omega)
  accepted := by
    intro t ht
    rcases Nat.lt_succ_iff_lt_or_eq.mp ht with hlt | rfl
    · exact h.accepted t hlt
    · exact htoken
  written := by
    intro t ht
    unfold VerifyInput.accept
    dsimp only
    rw [h.last]
    by_cases heq : t = k
    · rw [heq, Function.update_self]
    · rw [Function.update_of_ne (by omega)]
      exact h.written t (by omega)
  kept := by
    intro idx hidx
    unfold VerifyInput.accept
    dsimp only
    rw [h.last, Function.update_of_ne (hidx k (Nat.lt_succ_self k))]
    exact h.kept idx fun t ht => hidx t (Nat.lt_succ_of_lt ht)

/-- The loop has as many rounds as there are nodes left. -/
theorem AtNode.verifyLoop (hchain : IsChain input bid) {rounds : Nat}
    (hrounds : input.draftTokenNum ≤ k + rounds + 1)
    (h : AtNode input targetPredict bid k start s) :
    ∃ k' s', input.verifyLoop targetPredict bid (fuel + 1) rounds s = some s' ∧
      AtNode input targetPredict bid k' start s' ∧
      MatchLength input.draftToken targetPredict input.draftTokenNum bid k' := by
  induction rounds generalizing k s with
  | zero =>
    have hlt := h.lt
    exact ⟨k, s, rfl, h, h.lt, h.accepted, fun hnext => by omega⟩
  | succ rounds ih =>
    unfold VerifyInput.verifyLoop
    rw [h.cur, h.last, hchain.nextToken k h.lt]
    by_cases hnext : k + 1 < input.draftTokenNum
    · rw [if_pos hnext, hchain.walkSiblings _ hnext]
      by_cases htoken : input.draftToken (bid * input.draftTokenNum + (k + 1)) =
          targetPredict (bid * input.draftTokenNum + k)
      · rw [if_pos htoken]
        exact ih (by omega) (h.accept hchain hnext htoken)
      · rw [if_neg htoken]
        exact ⟨k, s, rfl, h, h.lt, h.accepted, fun _ => htoken⟩
    · rw [if_neg hnext]
      exact ⟨k, s, rfl, h, h.lt, h.accepted, fun hlt => absurd hlt hnext⟩

theorem atNode_startState (hchain : IsChain input bid) (hpos : 0 < input.draftTokenNum)
    (out : VerifyOutput) :
    AtNode input targetPredict bid 0 out.predicts (input.startState bid out) where
  lt := hpos
  cur := rfl
  last := hchain.retriveIndex hpos
  count := rfl
  indices := by
    intro j hj
    obtain rfl := Nat.le_zero.mp hj
    unfold VerifyInput.startState
    dsimp only
    rw [Function.update_self, hchain.retriveIndex hpos]
  accepted := fun t ht => absurd ht (Nat.not_lt_zero t)
  written := fun t ht => absurd ht (Nat.not_lt_zero t)
  kept := fun _ _ => rfl

/-- What the outputs hold for a request whose first `k` drafted tokens are accepted. -/
structure ChainVerified (input : VerifyInput) (targetPredict : Nat → Nat) (bid k : Nat)
    (out : VerifyOutput) : Prop where
  matched : MatchLength input.draftToken targetPredict input.draftTokenNum bid k
  count : out.acceptTokenNum bid = k
  indices : ∀ j ≤ k, out.acceptIndex bid j = some (bid * input.draftTokenNum + j)
  written : ∀ t ≤ k, out.predicts (bid * input.draftTokenNum + t) =
    targetPredict (bid * input.draftTokenNum + t)

theorem greedyRequest_chain (hchain : IsChain input bid) (hpos : 0 < input.draftTokenNum)
    (hsteps : input.draftTokenNum ≤ input.specSteps + 1) (out : VerifyOutput) :
    ∃ out' k, input.greedyRequest targetPredict (fuel + 1) bid out = some out' ∧
      ChainVerified input targetPredict bid k out' ∧
      (∀ idx, (∀ t < input.draftTokenNum, idx ≠ bid * input.draftTokenNum + t) →
        out'.predicts idx = out.predicts idx) ∧
      ∀ b, b ≠ bid → out'.acceptTokenNum b = out.acceptTokenNum b ∧
        out'.acceptIndex b = out.acceptIndex b := by
  have hstart : AtNode input targetPredict bid 0 out.predicts (input.startState bid out) :=
    atNode_startState hchain hpos out
  obtain ⟨k, s, hloop, hnode, hmatch⟩ : ∃ k s, input.verifyLoop targetPredict bid (fuel + 1)
      input.specSteps (input.startState bid out) = some s ∧
      AtNode input targetPredict bid k out.predicts s ∧
      MatchLength input.draftToken targetPredict input.draftTokenNum bid k :=
    hstart.verifyLoop hchain (by omega)
  have hpredicts : (VerifyInput.finishState targetPredict bid out s).predicts =
      Function.update s.predicts (bid * input.draftTokenNum + k)
        (targetPredict (bid * input.draftTokenNum + k)) := by
    unfold VerifyInput.finishState
    rw [hnode.last]
  refine ⟨VerifyInput.finishState targetPredict bid out s, k, ?_, ⟨hmatch, ?_, ?_, ?_⟩, ?_, ?_⟩
  · unfold VerifyInput.greedyRequest
    rw [hloop, Option.map_some]
  · exact (Function.update_self ..).trans hnode.count
  · intro j hj
    unfold VerifyInput.finishState
    dsimp only
    rw [Function.update_self]
    exact hnode.indices j hj
  · intro t ht
    rw [hpredicts]
    by_cases heq : t = k
    · rw [heq, Function.update_self]
    · rw [Function.update_of_ne (by omega)]
      exact hnode.written t (by omega)
  · intro idx hidx
    have hlt := hnode.lt
    rw [hpredicts, Function.update_of_ne (hidx k hlt)]
    exact hnode.kept idx fun t ht => hidx t (ht.trans hlt)
  · intro b hb
    exact ⟨Function.update_of_ne hb _ _, Function.update_of_ne hb _ _⟩

/-- Every request of a batch of chains is verified on its own. -/
theorem greedyRequests_chain {bs : Nat} (hchain : ∀ b < bs, IsChain input b)
    (hpos : 0 < input.draftTokenNum) (hsteps : input.draftTokenNum ≤ input.specSteps + 1)
    (out : VerifyOutput) :
    ∃ out', input.greedyRequests targetPredict (fuel + 1) out bs = some out' ∧
      ∀ b < bs, ∃ k, ChainVerified input targetPredict b k out' := by
  induction bs with
  | zero => exact ⟨out, rfl, fun b hb => absurd hb (Nat.not_lt_zero b)⟩
  | succ bs ih =>
    obtain ⟨before, hbefore, hverified⟩ := ih fun b hb => hchain b (Nat.lt_succ_of_lt hb)
    obtain ⟨after, k, hafter, hlast, hkept, hothers⟩ : ∃ out' k,
        input.greedyRequest targetPredict (fuel + 1) bs before = some out' ∧
        ChainVerified input targetPredict bs k out' ∧
        (∀ idx, (∀ t < input.draftTokenNum, idx ≠ bs * input.draftTokenNum + t) →
          out'.predicts idx = before.predicts idx) ∧
        ∀ b, b ≠ bs → out'.acceptTokenNum b = before.acceptTokenNum b ∧
          out'.acceptIndex b = before.acceptIndex b :=
      greedyRequest_chain (hchain bs (Nat.lt_succ_self bs)) hpos hsteps before
    refine ⟨after, ?_, ?_⟩
    · unfold VerifyInput.greedyRequests
      rw [hbefore, Option.bind_some, hafter]
    · intro b hb
      rcases Nat.lt_succ_iff_lt_or_eq.mp hb with hlt | rfl
      · obtain ⟨k', h⟩ := hverified b hlt
        obtain ⟨hcount, hindices⟩ := hothers b hlt.ne
        have hle : (b + 1) * input.draftTokenNum ≤ bs * input.draftTokenNum :=
          Nat.mul_le_mul_right _ hlt
        rw [Nat.succ_mul] at hle
        refine ⟨k', h.matched, by rw [hcount, h.count], ?_, ?_⟩
        · intro j hj
          rw [hindices, h.indices j hj]
        · intro t ht
          have hk := h.matched.lt
          rw [hkept _ fun t' _ => by omega, h.written t ht]
      · exact ⟨k, hlast⟩

/-- The loop accepts and appends what the closed form does. -/
theorem ChainVerified.eq_dflash {out : VerifyOutput}
    (h : ChainVerified input targetPredict bid k out) :
    out.acceptTokenNum bid =
        (dflashGreedyVerify input.draftToken targetPredict input.draftTokenNum).acceptLenDraft
          bid ∧
      acceptedTokens out bid = (dflashTokens input.draftToken input.draftTokenNum
        (dflashGreedyVerify input.draftToken targetPredict input.draftTokenNum) bid).map some := by
  have hpos : 0 < input.draftTokenNum := Nat.lt_of_le_of_lt (Nat.zero_le k) h.matched.lt
  have hk : (dflashGreedyVerify input.draftToken targetPredict
      input.draftTokenNum).acceptLenDraft bid = k :=
    (dflash_matchLength hpos bid).unique h.matched
  refine ⟨by rw [hk, h.count], ?_⟩
  have hbonus : (dflashGreedyVerify input.draftToken targetPredict input.draftTokenNum).bonus bid =
      targetPredict (bid * input.draftTokenNum + k) := by
    rw [← hk]
    rfl
  have haccepted : acceptedTokens out bid = (List.range (k + 1)).map fun t =>
      some (targetPredict (bid * input.draftTokenNum + t)) := by
    unfold acceptedTokens
    rw [h.count]
    apply List.map_congr_left
    intro t ht
    have hle : t ≤ k := Nat.le_of_lt_succ (List.mem_range.mp ht)
    rw [h.indices t hle, Option.map_some, h.written t hle]
  unfold dflashTokens
  rw [haccepted, hk, hbonus, List.range_succ, List.map_append, List.map_append, List.map_map]
  congr 1
  apply List.map_congr_left
  intro t ht
  rw [Function.comp_apply, h.matched.accepted t (List.mem_range.mp ht)]

end loop

/-! ### Both shortcuts -/

/-- The entry of a packed row. -/
def packedEntry (packed : List (List Int)) (row idx : Nat) : Int := (packed.getD row []).getD idx 0

/-- A packed link; -1 is `none`. -/
def packedLink (packed : List (List Int)) (row idx : Nat) : Option Nat :=
  (packedEntry packed row idx).toNat?

/-- The verify input that `draft` cuts out of the packed array. -/
def unpackChain (packed : List (List Int)) (numVerifyTokens batchSize specSteps : Nat) :
    VerifyInput where
  bs := batchSize
  draftTokenNum := numVerifyTokens
  specSteps := specSteps
  draftToken := fun idx => (packedEntry packed 0 idx).toNat
  retrive := fun bid =>
    { index := fun tid => packedLink packed 2 (bid * numVerifyTokens + tid)
      nextToken := fun tid => packedLink packed 3 (bid * numVerifyTokens + tid)
      nextSibling := fun tid => packedLink packed 4 (bid * numVerifyTokens + tid) }

theorem toNat?_linkValue (link : Option Nat) : (linkValue link).toNat? = link := by
  cases link <;> rfl

theorem isChain_unpackChain {verifiedId seqLens : Nat → Nat} {tokenList : Nat → Nat → Nat}
    {numVerifyTokens batchSize specSteps bid : Nat} (hbid : bid < batchSize) :
    IsChain (unpackChain (chainRows verifiedId tokenList seqLens numVerifyTokens batchSize)
      numVerifyTokens batchSize specSteps) bid := by
  have hentry : ∀ (matrix : Nat → Nat → Int) (t : Nat), t < numVerifyTokens →
      (flatRows batchSize numVerifyTokens matrix).getD (bid * numVerifyTokens + t) 0 =
        matrix bid t := by
    intro matrix t ht
    rw [List.getD_eq_getElem?_getD, getElem?_flatRows hbid ht, Option.getD_some]
  constructor
  · intro t ht
    exact (congrArg Int.toNat? (hentry _ t ht)).trans (toNat?_linkValue _)
  · intro t ht
    exact (congrArg Int.toNat? (hentry _ t ht)).trans (toNat?_linkValue _)
  · intro t ht
    exact (congrArg Int.toNat? (hentry _ t ht)).trans (toNat?_linkValue _)

/-- With one candidate in each step the two builders of the closed form agree with the tree
builder, its mask is causal, and the verification in closed form agrees with the one that follows
the links of the chain. -/
theorem chain_shortcuts_agree {R : Type} [Semiring R] [LinearOrder R] [IsStrictOrderedRing R]
    (batch : List (Drafting R 1)) {numVerifyTokens steps : Nat} (hpos : 0 < numVerifyTokens)
    (hsteps : numVerifyTokens ≤ steps + 1) (empty : Nat → Nat → Nat → Int) (emptyRow : Nat → Int)
    (maxSeqLenPerReq : Nat) (out : TreeOutput) :
    let packed := buildChainVerifyInputsHost (verifiedIds batch) (tokenLists batch steps)
      (verifiedSeqLens batch) numVerifyTokens batch.length empty emptyRow
    let tree := buildTreeKernelEfficient batch numVerifyTokens steps maxSeqLenPerReq out
    let input := unpackChain packed numVerifyTokens batch.length steps
    buildChainVerifyInputsDevice (verifiedIds batch) (tokenLists batch steps)
        (verifiedSeqLens batch) numVerifyTokens batch.length = packed ∧
      packTree tree numVerifyTokens batch.length = packed ∧
      (∀ b < batch.length, ∀ t < numVerifyTokens,
        ∀ col < verifiedSeqLens batch b + numVerifyTokens,
          KernelInput.Marked (tree.1.treeMask
            ((Finset.range b).sum (fun i => numVerifyTokens *
              (verifiedSeqLens batch i + numVerifyTokens)) +
              (verifiedSeqLens batch b + numVerifyTokens) * t + col))
            (col ≤ verifiedSeqLens batch b + t)) ∧
      ∀ (targetPredict : Nat → Nat) (fuel : Nat) (start : VerifyOutput),
        ∃ verified, input.greedyRequests targetPredict (fuel + 1) start batch.length =
            some verified ∧
          ∀ b < batch.length,
            let dflash := dflashGreedyVerify input.draftToken targetPredict numVerifyTokens
            verified.acceptTokenNum b = dflash.acceptLenDraft b ∧
              verified.acceptTokenNum b + 1 = dflash.acceptLensOut b ∧
              acceptedTokens verified b =
                (dflashTokens input.draftToken numVerifyTokens dflash b).map some := by
  intro packed tree input
  have hrows : packed = chainRows (verifiedIds batch) (tokenLists batch steps)
      (verifiedSeqLens batch) numVerifyTokens batch.length :=
    buildChainVerifyInputsHost_eq hpos empty emptyRow
  refine ⟨?_, ?_, ?_, ?_⟩
  · rw [hrows, buildChainVerifyInputsDevice_eq hpos]
  · rw [hrows]
    exact packTree_chain batch maxSeqLenPerReq out hpos hsteps
  · intro b hb t ht col hcol
    exact mask_chain batch maxSeqLenPerReq out hpos hsteps hb ht hcol
  · intro targetPredict fuel start
    have hchain : ∀ b < batch.length, IsChain input b := by
      intro b hb
      show IsChain (unpackChain packed numVerifyTokens batch.length steps) b
      rw [hrows]
      exact isChain_unpackChain hb
    obtain ⟨verified, hverified, hall⟩ : ∃ verified,
        input.greedyRequests targetPredict (fuel + 1) start batch.length = some verified ∧
        ∀ b < batch.length, ∃ k, ChainVerified input targetPredict b k verified :=
      greedyRequests_chain hchain hpos hsteps start
    refine ⟨verified, hverified, fun b hb => ?_⟩
    obtain ⟨k, hk⟩ := hall b hb
    obtain ⟨hcount, htokens⟩ := hk.eq_dflash
    exact ⟨hcount, congrArg (· + 1) hcount, htokens⟩

/-- A drafted chain whose tokens are equally likely at every step. -/
def evenChain : Drafting Rat 1 where
  draft := fun i => ⟨fun _ _ => 1, fun _ _ => 10 + i⟩
  probabilities := fun _ _ _ _ _ => ⟨by norm_num, by norm_num⟩
  empty := ⟨fun _ => 0, ⟨fun _ _ => 0, fun _ => 0, fun _ => 0⟩⟩
  verifiedId := 9
  seqLen := 5

/-- Three of the four tokens of two chains are verified. -/
theorem evenChain_packed :
    packTree (buildTreeKernelEfficient [evenChain, evenChain] 3 3 8 unwritten) 3 2 =
      [[9, 10, 11, 9, 10, 11], [5, 6, 7, 5, 6, 7], [0, 1, 2, 3, 4, 5], [1, 2, -1, 1, 2, -1],
        [-1, -1, -1, -1, -1, -1]] :=
  ((chain_shortcuts_agree [evenChain, evenChain] (by decide) (by decide) (fun _ _ _ => 0)
    (fun _ => 0) 8 unwritten).2.1).trans (by decide)

end SglJax.Speculative
