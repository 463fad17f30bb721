import SglJax.Speculative.EagleTreeSpec
import SglJax.Speculative.VerifyGreedy

/-! A verify round on the trees that the two builders give: chains, and trees of drafted
candidates. -/
namespace SglJax.Speculative

/-! ### Chains -/

/-- `build_chain_verify_inputs`; its positions are not read by the verification. -/
def buildChainVerifyInputs (verifiedId : Nat → Nat) (tokenList : Nat → Nat → Nat)
    (numVerifyTokens batchSize specSteps : Nat) : VerifyInput where
  bs := batchSize
  draftTokenNum := numVerifyTokens
  specSteps := specSteps
  draftToken := fun idx =>
    if idx % numVerifyTokens = 0 then verifiedId (idx / numVerifyTokens)
    else tokenList (idx / numVerifyTokens) (idx % numVerifyTokens - 1)
  retrive := fun bid =>
    { index := fun tid => some (bid * numVerifyTokens + tid)
      nextToken := fun tid => if tid < numVerifyTokens - 1 then some (tid + 1) else none
      nextSibling := fun _ => none }

/-- The chain of `n` nodes. -/
def chainTree (n : Nat) : ParentTree where
  parent := fun t => if 0 < t ∧ t < n then some (t - 1) else none
  parent_lt := by
    intro t u h
    split at h
    · cases h
      omega
    · cases h

theorem chainTree_parent_eq_some {n t p : Nat} :
    (chainTree n).parent t = some p ↔ t = p + 1 ∧ t < n := by
  unfold chainTree
  dsimp only
  split
  · rw [Option.some.injEq]
    omega
  · constructor
    · intro h
      cases h
    · omega

theorem chainTree_depth {n t : Nat} (h : t < n) : (chainTree n).depth t = t := by
  induction t with
  | zero => exact Nat.le_zero.mp ((chainTree n).depth_le 0)
  | succ t ih =>
    rw [ParentTree.depth_of_some (chainTree_parent_eq_some.mpr ⟨rfl, h⟩), ih (by omega)]

/-- The chains of a batch; a round has a step for every node behind the first. -/
def TreeBatch.chain (verifiedId : Nat → Nat) (tokenList : Nat → Nat → Nat)
    (numVerifyTokens batchSize specSteps : Nat) (hpos : 0 < numVerifyTokens)
    (hsteps : numVerifyTokens ≤ specSteps + 1) : TreeBatch where
  input := buildChainVerifyInputs verifiedId tokenList numVerifyTokens batchSize specSteps
  tree := fun _ => chainTree numVerifyTokens
  nonempty := hpos
  within := fun _ _ _ _ h => (chainTree_parent_eq_some.mp h).2
  parent := by
    intro b _ t ht hpos
    have hparent : (chainTree numVerifyTokens).parent t = some (t - 1) :=
      chainTree_parent_eq_some.mpr ⟨by omega, ht⟩
    rw [hparent]
    rfl
  index := fun _ _ _ _ => rfl
  children := by
    intro b _ p _
    unfold buildChainVerifyInputs
    dsimp only
    split
    · refine ⟨[p + 1], .cons .nil, List.nodup_singleton _, fun t => ?_⟩
      rw [List.mem_singleton, chainTree_parent_eq_some]
      omega
    · refine ⟨[], .nil, List.nodup_nil, fun t => ?_⟩
      rw [chainTree_parent_eq_some]
      simp only [List.not_mem_nil, false_iff]
      omega
  depth := by
    intro b _ t ht
    have hlt : t < numVerifyTokens := ht
    show (chainTree numVerifyTokens).depth t ≤ specSteps
    rw [chainTree_depth hlt]
    omega
  distinct := by
    intro b _ t t' p h h' _
    rw [(chainTree_parent_eq_some.mp h).1, (chainTree_parent_eq_some.mp h').1]

/-- A chain has its nodes in order. -/
theorem TreeBatch.chain_acceptsInOrder {verifiedId : Nat → Nat} {tokenList : Nat → Nat → Nat}
    {numVerifyTokens batchSize specSteps : Nat} {hpos : 0 < numVerifyTokens}
    {hsteps : numVerifyTokens ≤ specSteps + 1} (target : Nat → List Nat → Nat) (b : Nat) :
    (TreeBatch.chain verifiedId tokenList numVerifyTokens batchSize specSteps hpos
      hsteps).AcceptsInOrder target b :=
  fun _ ht _ => (chainTree_depth ht).symm

/-! ### Trees of candidates -/

namespace Selection

variable {s : Selection} {t c : Nat}

theorem parentNode_of_none (ht : 0 < t) (hc : s.candidates[t - 1]? = some c)
    (hp : s.parentOf c = none) : s.tree.parent t = some 0 := by
  show s.parentNode t = _
  unfold parentNode
  rw [if_neg (by omega), hc]
  dsimp only
  rw [hp]

theorem parentNode_of_some {p : Nat} (ht : 0 < t) (hc : s.candidates[t - 1]? = some c)
    (hp : s.parentOf c = some p) : s.tree.parent t = some (s.nodeOf p) := by
  show s.parentNode t = _
  unfold parentNode
  rw [if_neg (by omega), hc]
  dsimp only
  rw [hp]

/-- A node is as deep as the step of its candidate allows. -/
theorem depth_le_step (step : Nat → Nat)
    (hstep : ∀ {c p}, c ∈ s.candidates → s.parentOf c = some p → step p < step c) (ht : 0 < t)
    (hc : s.candidates[t - 1]? = some c) : s.tree.depth t ≤ step c + 1 := by
  induction t using Nat.strongRecOn generalizing c with
  | ind t ih =>
    cases hp : s.parentOf c with
    | none =>
      have hroot : s.tree.parent 0 = none := rfl
      rw [ParentTree.depth_of_some (parentNode_of_none ht hc hp), ParentTree.depth_of_none hroot]
      omega
    | some p =>
      have hparent := parentNode_of_some ht hc hp
      have hmem := s.closed (List.mem_of_getElem? hc) hp
      have hnode : s.candidates[s.nodeOf p - 1]? = some p := getElem?_idxOf hmem
      have hle := ih (s.nodeOf p) (s.tree.parent_lt hparent) (Nat.succ_pos _) hnode
      have hlt := hstep (List.mem_of_getElem? hc) hp
      rw [ParentTree.depth_of_some hparent]
      omega

end Selection

section Candidates

variable {R : Type} [Semiring R] [LinearOrder R] {topk : Nat}

/-- The step that a candidate is from. -/
def stepOf (topk c : Nat) : Nat := if c < topk then 0 else (c - topk) / topk ^ 2 + 1

theorem stepOf_lt {steps c : Nat} (hsteps : 0 < steps) (hc : c < candidateCount topk steps) :
    stepOf topk c < steps := by
  rw [candidateCount_eq] at hc
  unfold stepOf
  split
  · exact hsteps
  · have hlt : (c - topk) / topk ^ 2 < steps - 1 := Nat.div_lt_of_lt_mul (by rw [Nat.mul_comm]; omega)
    omega

/-- A candidate extends one of an earlier step. -/
theorem stepOf_parent_lt {draft : Nat → DraftOutput R} {empty : DraftState R} {c p : Nat}
    (htopk : 0 < topk) (hp : parentOf draft topk empty c = some p) :
    stepOf topk p < stepOf topk c := by
  have hsquare : 0 < topk ^ 2 := Nat.pow_pos htopk
  unfold parentOf at hp
  split at hp
  · cases hp
  · rename_i hlater
    obtain rfl := Option.some.inj hp
    have hrow : (c - topk) % topk ^ 2 / topk < topk := div_lt (Nat.mod_lt _ hsquare)
    have hkept : kept draft topk empty ((c - topk) / topk ^ 2) ((c - topk) % topk ^ 2 / topk) <
        topk + (c - topk) / topk ^ 2 * topk ^ 2 := kept_lt hrow
    generalize kept draft topk empty ((c - topk) / topk ^ 2) ((c - topk) % topk ^ 2 / topk) = p
      at hkept
    unfold stepOf
    rw [if_neg hlater]
    split
    · exact Nat.succ_pos _
    · have hlt : (p - topk) / topk ^ 2 < (c - topk) / topk ^ 2 := by
        rw [Nat.div_lt_iff_lt_mul hsquare]
        omega
      omega

variable [IsStrictOrderedRing R]

/-- `EagleVerifyInput` of a batch of drafts. -/
def eagleVerifyInput (batch : List (Drafting R topk)) (numVerifyTokens steps : Nat)
    (out : TreeOutput) : VerifyInput where
  bs := batch.length
  draftTokenNum := numVerifyTokens
  specSteps := steps
  draftToken := fun idx =>
    ((batch[idx / numVerifyTokens]?).elim [] fun d =>
      (d.treeInput numVerifyTokens steps).draftTokens).getD (idx % numVerifyTokens) 0
  retrive := out.retrive

variable {numVerifyTokens steps : Nat}

theorem treeAt_depth_le {batch : List (Drafting R topk)} {b t : Nat} (hsteps : 0 < steps)
    (hcount : numVerifyTokens - 1 ≤ candidateCount topk steps) (hb : b < batch.length)
    (ht : t < numVerifyTokens) : (treeAt batch numVerifyTokens steps b).depth t ≤ steps := by
  have htree : treeAt batch numVerifyTokens steps b =
      (batch[b].selection numVerifyTokens steps).tree := by
    unfold treeAt
    rw [List.getElem?_eq_getElem hb]
    rfl
  rw [htree]
  rcases Nat.eq_zero_or_pos t with rfl | hpos
  · exact Nat.le_trans (ParentTree.depth_le _ 0) (Nat.zero_le _)
  · have hlength : (batch[b].selection numVerifyTokens steps).candidates.length =
        numVerifyTokens - 1 := by
      show (batch[b].treeInput numVerifyTokens steps).selectedIndex.length = _
      unfold Drafting.treeInput
      exact length_selectedIndex hcount
    have hc := List.getElem?_eq_getElem (show t - 1 <
      (batch[b].selection numVerifyTokens steps).candidates.length by omega)
    have hlt : ∀ c ∈ (batch[b].selection numVerifyTokens steps).candidates,
        c < candidateCount topk steps := by
      intro c hmem
      have hselected : c ∈ (batch[b].treeInput numVerifyTokens steps).selectedIndex := hmem
      unfold Drafting.treeInput at hselected
      exact lt_of_mem_topK (mem_selectedIndex.mp hselected)
    have htopk : 0 < topk := by
      apply Nat.pos_of_ne_zero
      rintro rfl
      have hnone := hlt _ (List.mem_of_getElem? hc)
      simp [candidateCount] at hnone
    have hdepth := Selection.depth_le_step (stepOf topk)
      (fun _ hp => stepOf_parent_lt htopk hp) hpos hc
    have hstep := stepOf_lt hsteps (hlt _ (List.mem_of_getElem? hc))
    omega

/-- The trees of a batch of drafts in which siblings have different tokens. -/
def TreeBatch.ofDrafts (batch : List (Drafting R topk)) (numVerifyTokens steps maxContextLen : Nat)
    (out : TreeOutput) (hverify : 0 < numVerifyTokens) (hsteps : 0 < steps)
    (hcount : numVerifyTokens - 1 ≤ candidateCount topk steps)
    (hdistinct : ∀ b < batch.length, ∀ t t' p,
      (treeAt batch numVerifyTokens steps b).parent t = some p →
      (treeAt batch numVerifyTokens steps b).parent t' = some p →
      (eagleVerifyInput batch numVerifyTokens steps out).draftToken (b * numVerifyTokens + t) =
        (eagleVerifyInput batch numVerifyTokens steps out).draftToken (b * numVerifyTokens + t') →
      t = t') : TreeBatch where
  input := eagleVerifyInput batch numVerifyTokens steps
    (buildEagleTreeStructure
      (batch.map fun d : Drafting R topk => d.treeInput numVerifyTokens steps)
      (batch.map Drafting.seqLen) (sumSeqLens (batch.map Drafting.seqLen)) numVerifyTokens topk
      maxContextLen .fullMask out)
  tree := treeAt batch numVerifyTokens steps
  nonempty := hverify
  within := by
    intro b hb t p h
    by_contra hle
    have hnone := (encodes_kernelInput batch maxContextLen hverify hcount hb).outside t
      (Nat.le_of_not_lt hle)
    rw [h] at hnone
    cases hnone
  parent := by
    intro b hb t ht hpos
    rw [(encodes_kernelInput batch maxContextLen hverify hcount hb).parent_eq hpos ht]
    rfl
  index := fun b hb => (encodesTree_of_lt batch maxContextLen out hverify hcount hb).index
  children := fun b hb => (encodesTree_of_lt batch maxContextLen out hverify hcount hb).children
  depth := fun b hb t ht => treeAt_depth_le hsteps hcount hb ht
  distinct := hdistinct

end Candidates

/-! ### A round -/

namespace TreeBatch

variable {batch : TreeBatch} {target : Nat → List Nat → Nat} {b : Nat}

/-- A verify round appends the greedy tokens, as many as the longest path that agrees
allows, from output arrays of any content, exactly when the accepted nodes of each request
are the first ones of its tree. -/
theorem sample_greedy_iff (batch : TreeBatch) (target : Nat → List Nat → Nat) {fuel : Nat}
    {layout : SlotLayout} (hfuel : batch.input.draftTokenNum ≤ fuel)
    (hslots : ∀ b ∈ layout.slots, b < batch.input.bs) :
    (∀ out, ∃ result, batch.input.sample (batch.targetPredict target) fuel out = some result ∧
      ∀ b ∈ layout.slots, batch.IsAcceptLength target b (result.acceptLength b) ∧
        resolveSpecDecodeTokenIds result layout batch.input.draftTokenNum b =
          greedy (target b) [batch.token b 0] (result.acceptLength b)) ↔
      ∀ b ∈ layout.slots, batch.AcceptsInOrder target b := by
  have hrun : ∀ out, ∃ result, batch.input.sample (batch.targetPredict target) fuel out =
      some result ∧ ∀ b < batch.input.bs, ∃ node verified,
        Accepted batch target b node out.predicts verified ∧
          result.acceptLength b = verified.acceptTokenNum b + 1 ∧
          result.predict = verified.predicts := by
    intro out
    obtain ⟨verified, hverified, haccepted, _⟩ :=
      verifyTreeGreedy_spec target (le_refl batch.input.bs) hfuel out
    have hsample : ∃ result, batch.input.sample (batch.targetPredict target) fuel out =
        some result ∧ (∀ b, result.acceptLength b = verified.acceptTokenNum b + 1) ∧
          result.predict = verified.predicts := by
      unfold VerifyInput.sample
      rw [hverified]
      exact ⟨_, rfl, fun _ => rfl, rfl⟩
    obtain ⟨result, hsample, hlength, hpredict⟩ := hsample
    refine ⟨result, hsample, fun b hb => ?_⟩
    obtain ⟨node, hnode⟩ := haccepted b hb
    exact ⟨node, verified, hnode, hlength b, hpredict⟩
  constructor
  · intro h b hb
    by_contra horder
    have hlt := hslots b hb
    obtain ⟨_, _, hfirst⟩ := hrun ⟨fun _ _ => none, fun _ => 0, fun _ => 0⟩
    obtain ⟨node, _, hnode, _, _⟩ := hfirst b hlt
    obtain ⟨k, hk, hkn, hunwritten⟩ :=
      exists_unwritten hlt hnode.lt hnode.agrees hnode.ends horder
    -- arrays that do not hold the greedy token at the place
    let said := target b (batch.token b 0 :: greedy (target b) [batch.token b 0] k)
    let out : VerifyOutput := ⟨fun _ _ => none, fun _ => 0, fun _ => said + 1⟩
    obtain ⟨result, hsample, haccepted⟩ := hrun out
    obtain ⟨node', verified, hnode', hlength, hpredict⟩ := haccepted b hlt
    have hsame := hnode.node_unique hlt hnode'
    subst hsame
    obtain ⟨result', hsample', hcorrect⟩ := h out
    rw [hsample] at hsample'
    obtain rfl := Option.some.inj hsample'
    have htokens := congrArg (fun tokens => tokens[k]?) (hcorrect b hb).2
    have hka : k < result.acceptLength b := by
      rw [hlength, hnode'.count]
      exact hk
    rw [resolve_of_mem hb, List.getElem?_map, List.getElem?_range hka, getElem?_greedy hka,
      Option.map_some, hpredict, hnode'.kept k hkn hunwritten] at htokens
    exact Nat.succ_ne_self said (Option.some.inj htokens)
  · intro horder out
    obtain ⟨result, hsample, haccepted⟩ := hrun out
    refine ⟨result, hsample, fun b hb => ?_⟩
    obtain ⟨node, verified, hnode, hlength, hpredict⟩ := haccepted b (hslots b hb)
    rw [hlength]
    refine ⟨hnode.isAcceptLength (hslots b hb), ?_⟩
    rw [resolve_of_mem hb, hlength, hpredict]
    apply List.ext_getElem?
    intro k
    by_cases hk : k < verified.acceptTokenNum b + 1
    · rw [← hnode.predicts_of_inOrder (horder b hb) hk, List.getElem?_map, List.getElem?_range hk]
      rfl
    · have hlen := length_greedy (target b) [batch.token b 0] (verified.acceptTokenNum b + 1)
      rw [List.getElem?_eq_none (by simpa using hk), List.getElem?_eq_none (by omega)]

section Runs

/-- The length of the context. -/
def countTokens (_ : Nat) (context : List Nat) : Nat := context.length

/-- Two requests with the verified token 99 and the drafts 1 and 5. -/
def twoChains : TreeBatch :=
  TreeBatch.chain (fun _ => 99) (fun _ k => 4 * k + 1) 3 2 2 (by decide) (by decide)

/-- The slots of a rank with two requests. -/
def twoSlots : SlotLayout := ⟨2, [2]⟩

theorem twoChains_greedy : ∃ result,
    twoChains.input.sample (twoChains.targetPredict countTokens) 3
      ⟨fun _ _ => none, fun _ => 0, fun _ => 0⟩ = some result ∧
      ∀ b ∈ twoSlots.slots, twoChains.IsAcceptLength countTokens b (result.acceptLength b) ∧
        resolveSpecDecodeTokenIds result twoSlots twoChains.input.draftTokenNum b =
          greedy (countTokens b) [twoChains.token b 0] (result.acceptLength b) :=
  (sample_greedy_iff twoChains countTokens (show 3 ≤ 3 by decide)
    (show ∀ b ∈ twoSlots.slots, b < 2 by decide)).mpr
    (fun b _ => chain_acceptsInOrder countTokens b) _

/-- Arrays that hold zeros. -/
def zeros : TreeOutput where
  treeMask := fun _ => 0
  positions := fun _ => 0
  retrive := fun _ => ⟨fun _ => some 0, fun _ => some 0, fun _ => some 0⟩

theorem siblings_parent :
    (treeAt [halves] 3 1 0).parent = fun t => if t = 1 ∨ t = 2 then some 0 else none := by
  funext t
  match t with
  | 0 => decide +kernel
  | 1 => decide +kernel
  | 2 => decide +kernel
  | t + 3 =>
    rw [if_neg (by omega)]
    exact (encodes_kernelInput [halves] 8 (by decide) (by decide) (by decide)).outside (t + 3)
      (Nat.le_add_left 3 t)

theorem siblings_distinct : ∀ b < [halves].length, ∀ t t' p,
    (treeAt [halves] 3 1 b).parent t = some p → (treeAt [halves] 3 1 b).parent t' = some p →
      (eagleVerifyInput [halves] 3 1 zeros).draftToken (b * 3 + t) =
        (eagleVerifyInput [halves] 3 1 zeros).draftToken (b * 3 + t') → t = t' := by
  intro b hb t t' p h h' htoken
  obtain rfl : b = 0 := Nat.lt_one_iff.mp hb
  rw [siblings_parent] at h h'
  have ht : t = 1 ∨ t = 2 := by
    by_contra hne
    simp [hne] at h
  have ht' : t' = 1 ∨ t' = 2 := by
    by_contra hne
    simp [hne] at h'
  have hne : (eagleVerifyInput [halves] 3 1 zeros).draftToken (0 * 3 + 1) ≠
      (eagleVerifyInput [halves] 3 1 zeros).draftToken (0 * 3 + 2) := by decide +kernel
  rcases ht with rfl | rfl <;> rcases ht' with rfl | rfl
  · rfl
  · exact absurd htoken hne
  · exact absurd htoken.symm hne
  · rfl

/-- A request with two drafts for the token behind the verified one. -/
def siblings : TreeBatch :=
  TreeBatch.ofDrafts [halves] 3 1 8 zeros (by decide) (by decide) (by decide) siblings_distinct

theorem siblings_targetPredict :
    siblings.targetPredict countTokens = fun idx => if idx = 1 ∨ idx = 2 then 2 else 1 := by
  have hlength : ∀ idx, siblings.targetPredict countTokens idx =
      ((treeAt [halves] 3 1 (idx / 3)).path (idx % 3)).length := fun idx => List.length_map _
  funext idx
  rw [hlength]
  by_cases hfirst : idx < 3
  · rw [Nat.div_eq_of_lt hfirst, Nat.mod_eq_of_lt hfirst]
    split
    · rename_i h
      have hparent : (treeAt [halves] 3 1 0).parent idx = some 0 := by
        rw [siblings_parent]
        exact if_pos h
      have hroot : (treeAt [halves] 3 1 0).parent 0 = none := by
        rw [siblings_parent]
        rfl
      rw [ParentTree.path_of_some hparent, ParentTree.path_of_none hroot]
      rfl
    · rename_i h
      have hparent : (treeAt [halves] 3 1 0).parent idx = none := by
        rw [siblings_parent]
        exact if_neg h
      rw [ParentTree.path_of_none hparent]
      rfl
  · have hparent : (treeAt [halves] 3 1 (idx / 3)).parent (idx % 3) = none := by
      unfold treeAt
      rw [List.getElem?_eq_none (by simp; omega)]
    rw [ParentTree.path_of_none hparent, if_neg (by omega)]
    rfl

def oneSlot : SlotLayout := ⟨1, [1]⟩

/-- The second of two drafts is accepted, and the token of the first one's place is read. -/
theorem siblings_skips :
    (∃ result, siblings.input.sample (siblings.targetPredict countTokens) 3
        ⟨fun _ _ => none, fun _ => 0, fun _ => 0⟩ = some result ∧
      result.acceptLength 0 = 2 ∧ result.verifiedId 0 = 1 ∧ result.verifiedId 1 = 2 ∧
      resolveSpecDecodeTokenIds result oneSlot 3 0 = [1, 0]) ∧
    greedy (countTokens 0) [siblings.token 0 0] 2 = [1, 2] := by
  rw [siblings_targetPredict]
  refine ⟨?_, rfl⟩
  have hsample : ((siblings.input.sample (fun idx => if idx = 1 ∨ idx = 2 then 2 else 1) 3
      ⟨fun _ _ => none, fun _ => 0, fun _ => 0⟩).map fun result =>
        (result.acceptLength 0, result.verifiedId 0, result.verifiedId 1,
          resolveSpecDecodeTokenIds result oneSlot 3 0)) = some (2, 1, 2, [1, 0]) := by
    decide +kernel
  obtain ⟨result, hresult, heq⟩ := Option.map_eq_some_iff.mp hsample
  simp only [Prod.mk.injEq] at heq
  exact ⟨result, hresult, heq⟩

end Runs

end TreeBatch

end SglJax.Speculative
