import SglJax.Speculative.TreeSampling

/-! What tree speculative sampling leaves of a request, from the path that its coins
choose. -/
namespace SglJax.Speculative

open Foundation.ResidualSampling

variable {K : Type} [Field K] [LinearOrder K]

/-- The pointers followed for at most `fuel` nodes. -/
def siblingsFrom (next : Nat → Option Nat) : Nat → Option Nat → List Nat
  | 0, _ => []
  | _ + 1, none => []
  | fuel + 1, some node => node :: siblingsFrom next fuel (next node)

namespace SamplingInput

variable (input : SamplingInput K)

def children (bid v : Nat) : List Nat :=
  siblingsFrom (input.retriveNextSibling bid) input.numDraftTokens (input.retriveNextToken bid v)

def row (bid v : Nat) : Nat → K := input.targetProbs (bid * input.numDraftTokens + v)

/-- The first sibling that a coin accepts. -/
def firstAccepted (bid : Nat) (coin : K) (q : Nat → K) : K → List Nat → Option Nat
  | _, [] => none
  | acc, node :: rest =>
    let p := q (input.candidates bid node)
    if coin ≤ (acc + p) / input.thresholdAcc ∨ input.thresholdSingle ≤ p then some node
    else firstAccepted bid coin q (acc + p) rest

/-- The child that the coin at a node chooses. -/
def chosen (bid v : Nat) : Option Nat :=
  input.firstAccepted bid (input.uniformSamples bid v) (input.row bid v) 0 (input.children bid v)

/-- The accepted nodes from `v` on, for at most `rounds` steps. -/
def pathFrom (bid : Nat) : Nat → Nat → List Nat
  | 0, v => [v]
  | rounds + 1, v =>
    match input.chosen bid v with
    | none => [v]
    | some node => v :: pathFrom bid rounds node

def path (bid : Nat) : List Nat := input.pathFrom bid (input.numSpecStep - 1) 0

/-- The row less the rejected tokens. -/
def leftOver (q : Nat → K) (rejected : List Nat) (t : Nat) : K :=
  max (q t - if t ∈ rejected then q t else 0) 0

/-- The final coin of the request draws from a row. -/
def drawFrom (bid : Nat) (w : Nat → K) : Nat :=
  samplingFromProb input.vocabSize w
    (input.uniformSamplesForFinalSampling bid * mass w input.vocabSize)

/-- The token after a node of the path; at the last step no child is tried. -/
def following (bid v : Nat) (last : Bool) : Nat :=
  if last then input.drawFrom bid (leftOver (input.row bid v) [])
  else
    match input.chosen bid v with
    | some node => input.candidates bid node
    | none => input.drawFrom bid
        (leftOver (input.row bid v) ((input.children bid v).map (input.candidates bid)))

end SamplingInput

/-! ### Trees -/

theorem siblingsFrom_eq {next : Nat → Option Nat} {first : Option Nat} {nodes : List Nat}
    (h : Chain next first nodes) {fuel : Nat} (hfuel : nodes.length ≤ fuel) :
    siblingsFrom next fuel first = nodes := by
  induction nodes generalizing first fuel with
  | nil =>
    rw [show first = none from h]
    cases fuel <;> rfl
  | cons node rest ih =>
    obtain ⟨rfl, hrest⟩ := h
    cases fuel with
    | zero => simp at hfuel
    | succ fuel => rw [siblingsFrom, ih hrest (Nat.le_of_succ_le_succ hfuel)]

namespace IsTree

variable {input : SamplingInput K} {bid v depth : Nat}

theorem children_spec (h : IsTree input bid) (hv : NodeAt input bid v depth) :
    Chain (input.retriveNextSibling bid) (input.retriveNextToken bid v) (input.children bid v) ∧
      ((input.children bid v).map (input.candidates bid)).Nodup ∧
      (input.children bid v).length ≤ input.numDraftTokens := by
  obtain ⟨nodes, hchain, hnodup⟩ := h.ends v depth hv
  have hlen : nodes.length ≤ input.numDraftTokens := by
    have hsub : nodes ⊆ List.range input.numDraftTokens := fun node hnode =>
      List.mem_range.mpr (h.inRange node (depth + 1) (.child hv hchain hnode))
    have hcard := (hnodup.of_map _).subperm hsub
    exact hcard.length_le.trans_eq List.length_range
  have heq : input.children bid v = nodes := siblingsFrom_eq hchain hlen
  rw [heq]
  exact ⟨hchain, hnodup, hlen⟩

theorem nodeAt_child (h : IsTree input bid) (hv : NodeAt input bid v depth) {node : Nat}
    (hnode : node ∈ input.children bid v) : NodeAt input bid node (depth + 1) :=
  .child hv (h.children_spec hv).1 hnode

end IsTree

namespace SamplingInput

variable {input : SamplingInput K} {bid : Nat}

theorem mem_of_firstAccepted {coin : K} {q : Nat → K} {acc : K} {nodes : List Nat} {node : Nat}
    (h : input.firstAccepted bid coin q acc nodes = some node) : node ∈ nodes := by
  induction nodes generalizing acc with
  | nil => cases h
  | cons first rest ih =>
    rw [firstAccepted] at h
    split at h
    · cases h
      exact List.mem_cons_self
    · exact List.mem_cons_of_mem _ (ih h)

theorem nodeAt_chosen (htree : IsTree input bid) {v depth node : Nat}
    (hv : NodeAt input bid v depth) (h : input.chosen bid v = some node) :
    NodeAt input bid node (depth + 1) := htree.nodeAt_child hv (mem_of_firstAccepted h)

theorem pathFrom_nodeAt (htree : IsTree input bid) {rounds v depth k w : Nat}
    (hv : NodeAt input bid v depth) (h : (input.pathFrom bid rounds v)[k]? = some w) :
    NodeAt input bid w (depth + k) := by
  induction rounds generalizing v depth k with
  | zero =>
    cases k with
    | zero =>
      cases h
      exact hv
    | succ k => cases h
  | succ rounds ih =>
    rw [pathFrom] at h
    split at h
    · cases k with
      | zero =>
        cases h
        exact hv
      | succ k => cases h
    · rename_i node hnode
      cases k with
      | zero =>
        cases h
        exact hv
      | succ k =>
        rw [List.getElem?_cons_succ] at h
        have hw := ih (nodeAt_chosen htree hv hnode) h
        rwa [Nat.add_assoc, Nat.add_comm 1] at hw

/-! ### The inner loop -/

/-- The loop over the siblings accepts the first that the coin accepts; before that, it
writes the tokens that it rejects into the row of the node. -/
theorem trySiblings_spec {first : Option Nat} {nodes : List Nat}
    (hchain : Chain (input.retriveNextSibling bid) first nodes) {fuel : Nat}
    (hfuel : nodes.length ≤ fuel) (s : SamplingState K) :
    ∃ acc draft, (∀ row, row ≠ s.curProbOffset → draft row = s.draftProbs row) ∧
      match input.firstAccepted bid s.coin (input.targetProbs s.curProbOffset) s.probAcc nodes with
      | some node => input.trySiblings bid fuel first s =
          some (true, input.accept bid node { s with probAcc := acc, draftProbs := draft })
      | none => input.trySiblings bid fuel first s =
          some (false, { s with probAcc := acc, draftProbs := draft }) ∧
        ∀ t, draft s.curProbOffset t = if t ∈ nodes.map (input.candidates bid) then
          input.targetProbs s.curProbOffset t else s.draftProbs s.curProbOffset t := by
  induction nodes generalizing first fuel s with
  | nil =>
    rw [show first = none from hchain]
    refine ⟨s.probAcc, s.draftProbs, fun _ _ => rfl, ?_⟩
    rw [firstAccepted]
    refine ⟨by cases fuel <;> rfl, fun t => by simp⟩
  | cons node rest ih =>
    obtain ⟨rfl, hrest⟩ := hchain
    cases fuel with
    | zero => simp at hfuel
    | succ fuel =>
      rw [firstAccepted, trySiblings]
      by_cases haccept : s.coin ≤ (s.probAcc + input.targetProbs s.curProbOffset
          (input.candidates bid node)) / input.thresholdAcc ∨
          input.thresholdSingle ≤ input.targetProbs s.curProbOffset (input.candidates bid node)
      · rw [if_pos haccept, if_pos haccept]
        exact ⟨_, s.draftProbs, fun _ _ => rfl, rfl⟩
      · rw [if_neg haccept, if_neg haccept]
        let s' : SamplingState K := { s with
          probAcc := s.probAcc + input.targetProbs s.curProbOffset (input.candidates bid node)
          draftProbs := setEntry s.draftProbs s.curProbOffset (input.candidates bid node)
            (input.targetProbs s.curProbOffset (input.candidates bid node)) }
        obtain ⟨acc, draft, hrows, hout⟩ := ih hrest (Nat.le_of_succ_le_succ hfuel) s'
        refine ⟨acc, draft, ?_, ?_⟩
        · intro row hrow
          rw [hrows row hrow]
          exact Function.update_of_ne hrow _ _
        · dsimp only [s'] at hout
          split at hout
          · exact hout
          · refine ⟨hout.1, fun t => ?_⟩
            rw [hout.2 t, List.map_cons, setEntry, Function.update_self]
            by_cases hmem : t ∈ rest.map (input.candidates bid)
            · rw [if_pos hmem, if_pos (List.mem_cons_of_mem _ hmem)]
            · rw [if_neg hmem]
              by_cases hself : t = input.candidates bid node
              · rw [hself, Function.update_self, if_pos List.mem_cons_self]
              · rw [Function.update_of_ne hself, if_neg (by simp [hself, hmem])]

/-! ### The loop over the steps -/

/-- The loop stands at a node, with the rows of the nodes from there on untouched. -/
structure At (input : SamplingInput K) (bid v depth : Nat) (s : SamplingState K) : Prop where
  probAcc : s.probAcc = 0
  offset : s.curProbOffset = bid * input.numDraftTokens + v
  curIndex : s.curIndex = v
  coin : s.coin = input.uniformSamples bid v
  last : s.lastAcceptedRetriveIdx = input.retriveIndex bid v
  count : s.numAcceptedTokens = depth
  clean : ∀ w d, NodeAt input bid w d → depth ≤ d → ∀ t,
    s.draftProbs (bid * input.numDraftTokens + w) t = 0

/-- What the loop and the final sampling leave when they start from `s` at `v`. -/
structure Ends (input : SamplingInput K) (bid rounds v depth : Nat) (s out : SamplingState K) :
    Prop where
  tokens : ∀ k w, (input.pathFrom bid rounds v)[k]? = some w →
    Function.update out.predicts out.lastAcceptedRetriveIdx (input.sampledId bid out)
      (input.retriveIndex bid w) = input.following bid w (decide (k = rounds))
  others : ∀ idx, (∀ w ∈ input.pathFrom bid rounds v, input.retriveIndex bid w ≠ idx) →
    Function.update out.predicts out.lastAcceptedRetriveIdx (input.sampledId bid out) idx =
      s.predicts idx
  count : out.numAcceptedTokens + 1 = depth + (input.pathFrom bid rounds v).length
  accepted : ∀ k w, (input.pathFrom bid rounds v)[k]? = some w → 0 < k →
    out.acceptIndex (depth + k) = some (input.retriveIndex bid w)
  early : ∀ j ≤ depth, out.acceptIndex j = s.acceptIndex j
  rows : ∀ row, (∀ w ∈ input.pathFrom bid rounds v, row ≠ bid * input.numDraftTokens + w) →
    out.draftProbs row = s.draftProbs row

/-- The places of the nodes of a request in the predictions are distinct. -/
def DistinctPlaces (input : SamplingInput K) (bid : Nat) : Prop :=
  ∀ v w d e, NodeAt input bid v d → NodeAt input bid w e →
    input.retriveIndex bid v = input.retriveIndex bid w → v = w

theorem pathFrom_ne_nil (input : SamplingInput K) (bid rounds v : Nat) :
    ∃ rest, input.pathFrom bid rounds v = v :: rest := by
  cases rounds with
  | zero => exact ⟨[], rfl⟩
  | succ rounds =>
    rw [pathFrom]
    split
    · exact ⟨[], rfl⟩
    · exact ⟨_, rfl⟩

/-- The loop ends at `v`, and its row is sampled. -/
theorem ends_here {rounds v depth : Nat} {s out : SamplingState K} (hat : At input bid v depth s)
    (hpath : input.pathFrom bid rounds v = [v])
    (hsame : out.predicts = s.predicts ∧ out.acceptIndex = s.acceptIndex ∧
      out.numAcceptedTokens = s.numAcceptedTokens ∧
      out.lastAcceptedRetriveIdx = s.lastAcceptedRetriveIdx)
    (hrows : ∀ row, row ≠ s.curProbOffset → out.draftProbs row = s.draftProbs row)
    (htoken : input.sampledId bid out = input.following bid v (decide (0 = rounds))) :
    Ends input bid rounds v depth s out := by
  obtain ⟨hpredicts, haccept, hcount, hlast⟩ := hsame
  rw [hat.last] at hlast
  refine ⟨?_, ?_, ?_, ?_, ?_, ?_⟩
  · intro k w hw
    rw [hpath] at hw
    cases k with
    | zero =>
      cases hw
      rw [hlast, Function.update_self, htoken]
    | succ k => cases hw
  · intro idx hidx
    rw [hpath] at hidx
    rw [hlast, Function.update_of_ne (hidx v (List.mem_singleton_self v)).symm, hpredicts]
  · rw [hcount, hat.count, hpath, List.length_singleton]
  · intro k w hw hk
    rw [hpath] at hw
    cases k with
    | zero => exact absurd hk (lt_irrefl 0)
    | succ k => cases hw
  · exact fun j _ => congrFun haccept j
  · intro row hrow
    rw [hpath] at hrow
    exact hrows row (hat.offset ▸ hrow v (List.mem_singleton_self v))

theorem sampleLoop_spec (htree : IsTree input bid) (hplaces : DistinctPlaces input bid)
    {fuel : Nat} (hfuel : input.numDraftTokens ≤ fuel) {rounds v depth : Nat} {s : SamplingState K}
    (hat : At input bid v depth s) (hv : NodeAt input bid v depth)
    (hsteps : depth + rounds + 1 = input.numSpecStep) :
    ∃ out, input.sampleLoop bid fuel rounds s = some out ∧
      Ends input bid rounds v depth s out := by
  induction rounds generalizing v depth s with
  | zero =>
    refine ⟨s, rfl, ends_here hat rfl ⟨rfl, rfl, rfl, rfl⟩ (fun _ _ => rfl) ?_⟩
    have hlast : ¬ s.numAcceptedTokens + 1 ≠ input.numSpecStep := by
      rw [hat.count]
      omega
    have hrelu : input.reluQMinusP s = leftOver (input.row bid v) [] := by
      funext t
      rw [reluQMinusP, if_neg hlast, hat.offset, leftOver, if_neg (List.not_mem_nil)]
      rfl
    rw [sampledId, hrelu]
    rfl
  | succ rounds ih =>
    obtain ⟨hchain, -, hlen⟩ := htree.children_spec hv
    obtain ⟨acc, draft, hrows, hout⟩ := trySiblings_spec hchain (hlen.trans hfuel) s
    have hchoice : input.firstAccepted bid s.coin (input.targetProbs s.curProbOffset) s.probAcc
        (input.children bid v) = input.chosen bid v := by
      rw [hat.coin, hat.offset, hat.probAcc]
      rfl
    rw [hchoice] at hout
    rw [sampleLoop, hat.curIndex]
    cases hchosen : input.chosen bid v with
    | none =>
      rw [hchosen] at hout
      rw [hout.1]
      refine ⟨_, rfl, ends_here hat (by rw [pathFrom, hchosen]) ⟨rfl, rfl, rfl, rfl⟩ hrows ?_⟩
      have hmore : s.numAcceptedTokens + 1 ≠ input.numSpecStep := by
        rw [hat.count]
        omega
      have hrelu : input.reluQMinusP { s with probAcc := acc, draftProbs := draft } =
          leftOver (input.row bid v) ((input.children bid v).map (input.candidates bid)) := by
        funext t
        rw [reluQMinusP, if_pos hmore, leftOver]
        dsimp only
        rw [hout.2 t, hat.offset, hat.clean v depth hv le_rfl t]
        rfl
      rw [following, if_neg (by simp), hchosen, sampledId, hrelu]
      rfl
    | some node =>
      rw [hchosen] at hout
      rw [hout]
      have hnode := nodeAt_chosen htree hv hchosen
      have hpath : input.pathFrom bid (rounds + 1) v = v :: input.pathFrom bid rounds node := by
        rw [pathFrom, hchosen]
      -- Every later node is deeper, so it is another node in another place.
      have hdeeper {w d : Nat} (hw : NodeAt input bid w d) (hd : depth < d) : w ≠ v := by
        rintro rfl
        exact absurd (htree.once w d depth hw hv) (by omega)
      have hlater {w : Nat} (hw : w ∈ input.pathFrom bid rounds node) :
          ∃ d, NodeAt input bid w d ∧ depth < d := by
        obtain ⟨k, hk⟩ := List.mem_iff_getElem?.mp hw
        exact ⟨_, pathFrom_nodeAt htree hnode hk, by omega⟩
      have hat' : At input bid node (depth + 1)
          (input.accept bid node { s with probAcc := acc, draftProbs := draft }) := by
        refine ⟨rfl, rfl, rfl, rfl, rfl, congrArg (· + 1) hat.count, ?_⟩
        intro w d hw hd t
        have hne := hdeeper hw (by omega)
        have hrow : bid * input.numDraftTokens + w ≠ s.curProbOffset := by
          rw [hat.offset]
          omega
        exact (congrFun (hrows _ hrow) t).trans (hat.clean w d hw (by omega) t)
      obtain ⟨out, hloop, hends⟩ := ih hat' hnode (by omega)
      refine ⟨out, hloop, ?_, ?_, ?_, ?_, ?_, ?_⟩
      · intro k w hw
        rw [hpath] at hw
        cases k with
        | zero =>
          cases hw
          have hplace : ∀ w ∈ input.pathFrom bid rounds node,
              input.retriveIndex bid w ≠ input.retriveIndex bid v := by
            intro w hw heq
            obtain ⟨d, hd, hlt⟩ := hlater hw
            exact hdeeper hd hlt (hplaces w v d depth hd hv heq)
          rw [hends.others _ hplace, following, if_neg (by simp), hchosen]
          change Function.update s.predicts s.lastAcceptedRetriveIdx _ _ = _
          rw [hat.last, Function.update_self]
        | succ k =>
          rw [hends.tokens k w hw]
          simp only [Nat.add_right_cancel_iff]
      · intro idx hidx
        rw [hpath] at hidx
        rw [hends.others idx fun w hw => hidx w (List.mem_cons_of_mem _ hw)]
        change Function.update s.predicts s.lastAcceptedRetriveIdx _ _ = _
        rw [hat.last, Function.update_of_ne (hidx v List.mem_cons_self).symm]
      · rw [hends.count, hpath, List.length_cons]
        omega
      · intro k w hw hk
        rw [hpath] at hw
        cases k with
        | zero => exact absurd hk (lt_irrefl 0)
        | succ k =>
          rw [List.getElem?_cons_succ] at hw
          rcases Nat.eq_zero_or_pos k with rfl | hpos
          · obtain ⟨rest, hrest⟩ := pathFrom_ne_nil input bid rounds node
            rw [hrest] at hw
            cases hw
            rw [hends.early _ le_rfl]
            change Function.update s.acceptIndex (s.numAcceptedTokens + 1) _ _ = _
            rw [hat.count, Function.update_self]
          · have := hends.accepted k w hw hpos
            rwa [Nat.add_assoc, Nat.add_comm 1] at this
      · intro j hj
        rw [hends.early j (by omega)]
        change Function.update s.acceptIndex (s.numAcceptedTokens + 1) _ _ = _
        rw [hat.count, Function.update_of_ne (by omega)]
      · intro row hrow
        rw [hpath] at hrow
        rw [hends.rows row fun w hw => hrow w (List.mem_cons_of_mem _ hw)]
        exact hrows row (hat.offset ▸ hrow v List.mem_cons_self)

/-! ### Requests -/

/-- What a request gets. -/
structure Sampled (input : SamplingInput K) (bid : Nat) (out : SamplingArrays K) : Prop where
  tokens : ∀ k w, (input.path bid)[k]? = some w → out.predicts (input.retriveIndex bid w) =
    input.following bid w (decide (k + 1 = input.numSpecStep))
  count : out.acceptTokenNum bid + 1 = (input.path bid).length
  accepted : ∀ k w, (input.path bid)[k]? = some w →
    out.acceptIndex bid k = some (input.retriveIndex bid w)

/-- What a request leaves of the others. -/
structure Keeps (input : SamplingInput K) (bid : Nat) (arrays out : SamplingArrays K) : Prop where
  predicts : ∀ idx, (∀ w d, NodeAt input bid w d → input.retriveIndex bid w ≠ idx) →
    out.predicts idx = arrays.predicts idx
  acceptTokenNum : ∀ other, other ≠ bid → out.acceptTokenNum other = arrays.acceptTokenNum other
  acceptIndex : ∀ other, other ≠ bid → out.acceptIndex other = arrays.acceptIndex other
  draftProbs : ∀ row, (∀ w < input.numDraftTokens, row ≠ bid * input.numDraftTokens + w) →
    out.draftProbs row = arrays.draftProbs row

theorem sampleRequest_spec (hsteps : 0 < input.numSpecStep) (htree : IsTree input bid)
    (hplaces : DistinctPlaces input bid) {fuel : Nat} (hfuel : input.numDraftTokens ≤ fuel)
    {arrays : SamplingArrays K} (hclean : ∀ w < input.numDraftTokens, ∀ t,
      arrays.draftProbs (bid * input.numDraftTokens + w) t = 0) :
    ∃ out, input.sampleRequest fuel bid arrays = some out ∧ Sampled input bid out ∧
      Keeps input bid arrays out := by
  have hat : At input bid 0 0 (input.startState bid arrays) :=
    ⟨rfl, rfl, rfl, rfl, rfl, rfl, fun w d hw _ t => hclean w (htree.inRange w d hw) t⟩
  obtain ⟨s, hloop, hends⟩ := sampleLoop_spec htree hplaces hfuel hat .root
    (show 0 + (input.numSpecStep - 1) + 1 = input.numSpecStep by omega)
  have hnodes {w : Nat} (hw : w ∈ input.path bid) : ∃ d, NodeAt input bid w d := by
    obtain ⟨k, hk⟩ := List.mem_iff_getElem?.mp hw
    exact ⟨_, pathFrom_nodeAt htree .root hk⟩
  refine ⟨input.finish bid arrays s, by rw [sampleRequest, hloop, Option.map_some], ?_, ?_⟩
  · refine ⟨?_, ?_, ?_⟩
    · intro k w hw
      have htoken := hends.tokens k w hw
      have hlast : (k = input.numSpecStep - 1) = (k + 1 = input.numSpecStep) :=
        propext (by omega)
      simp only [hlast] at htoken
      exact htoken
    · have hcount := hends.count
      rw [Nat.zero_add] at hcount
      change Function.update arrays.acceptTokenNum bid s.numAcceptedTokens bid + 1 = _
      rw [Function.update_self]
      exact hcount
    · intro k w hw
      change Function.update arrays.acceptIndex bid s.acceptIndex bid k = _
      rw [Function.update_self]
      rcases Nat.eq_zero_or_pos k with rfl | hpos
      · obtain ⟨rest, hrest⟩ := pathFrom_ne_nil input bid (input.numSpecStep - 1) 0
        rw [path, hrest] at hw
        cases hw
        rw [hends.early 0 le_rfl]
        change Function.update (arrays.acceptIndex bid) 0 (some (input.retriveIndex bid 0)) 0 = _
        rw [Function.update_self]
      · have haccepted := hends.accepted k w hw hpos
        rwa [Nat.zero_add] at haccepted
  · refine ⟨?_, ?_, ?_, ?_⟩
    · intro idx hidx
      refine hends.others idx fun w hw => ?_
      obtain ⟨d, hd⟩ := hnodes hw
      exact hidx w d hd
    · exact fun other hne => Function.update_of_ne hne _ _
    · exact fun other hne => Function.update_of_ne hne _ _
    · intro row hrow
      refine hends.rows row fun w hw => ?_
      obtain ⟨d, hd⟩ := hnodes hw
      exact hrow w (htree.inRange w d hd)

/-- The trees of a batch, and arrays as the caller gives them. -/
structure Ready (input : SamplingInput K) (arrays : SamplingArrays K) : Prop where
  steps : 0 < input.numSpecStep
  trees : ∀ bid < input.bs, IsTree input bid
  places : ∀ bid bid' v w d e, bid < input.bs → bid' < input.bs → NodeAt input bid v d →
    NodeAt input bid' w e → input.retriveIndex bid v = input.retriveIndex bid' w →
      bid = bid' ∧ v = w
  clean : ∀ row t, arrays.draftProbs row t = 0

theorem row_ne {n bid bid' w w' : Nat} (hw : w < n) (hw' : w' < n) (hne : bid ≠ bid') :
    bid * n + w ≠ bid' * n + w' := by
  intro heq
  have hdiv := congrArg (· / n) heq
  rw [Nat.mul_comm bid, Nat.mul_comm bid', Nat.mul_add_div (by omega), Nat.mul_add_div (by omega),
    Nat.div_eq_of_lt hw, Nat.div_eq_of_lt hw'] at hdiv
  exact hne hdiv

/-- Every request is sampled, whatever the arrays held before. -/
theorem sampleRequests_spec {arrays : SamplingArrays K} (hready : Ready input arrays) {fuel : Nat}
    (hfuel : input.numDraftTokens ≤ fuel) {bids : Nat} (hbids : bids ≤ input.bs) :
    ∃ out, input.sampleRequests fuel arrays bids = some out ∧
      (∀ bid < bids, Sampled input bid out) ∧
      ∀ bid, bids ≤ bid → ∀ w < input.numDraftTokens, ∀ t,
        out.draftProbs (bid * input.numDraftTokens + w) t = 0 := by
  induction bids with
  | zero => exact ⟨arrays, rfl, fun _ h => by omega, fun bid _ w _ t => hready.clean _ t⟩
  | succ bids ih =>
    obtain ⟨before, hbefore, hsampled, hclean⟩ := ih (by omega)
    have hlt : bids < input.bs := by omega
    have hplaces : DistinctPlaces input bids := fun v w d e hv hw heq =>
      (hready.places bids bids v w d e hlt hlt hv hw heq).2
    obtain ⟨out, hout, hlast, hkeeps⟩ := sampleRequest_spec hready.steps (hready.trees bids hlt)
      hplaces hfuel (hclean bids le_rfl)
    refine ⟨out, by rw [sampleRequests, hbefore, Option.bind_some, hout], ?_, ?_⟩
    · intro bid hbid
      rcases Nat.lt_succ_iff_lt_or_eq.mp hbid with hless | rfl
      · obtain ⟨htokens, hcount, haccepted⟩ := hsampled bid hless
        refine ⟨?_, ?_, ?_⟩
        · intro k w hw
          rw [← htokens k w hw]
          apply hkeeps.predicts
          intro w' d hw' heq
          have hnode := pathFrom_nodeAt (hready.trees bid (by omega)) .root hw
          have hsame := (hready.places bids bid w' w d _ hlt (by omega) hw' hnode heq).1
          omega
        · rw [hkeeps.acceptTokenNum bid (by omega), hcount]
        · intro k w hw
          rw [hkeeps.acceptIndex bid (by omega), haccepted k w hw]
      · exact hlast
    · intro bid hbid w hw t
      rw [hkeeps.draftProbs _ fun w' hw' => row_ne hw hw' (by omega)]
      exact hclean bid (by omega) w hw t

theorem treeSpeculativeSampling_spec {arrays : SamplingArrays K} (hready : Ready input arrays)
    {fuel : Nat} (hfuel : input.numDraftTokens ≤ fuel) :
    ∃ out, input.treeSpeculativeSamplingTargetOnly fuel arrays = some out ∧
      ∀ bid < input.bs, Sampled input bid out := by
  obtain ⟨out, hout, hsampled, -⟩ := sampleRequests_spec hready hfuel le_rfl
  exact ⟨out, hout, hsampled⟩

end SamplingInput
end SglJax.Speculative
