import SglJax.Speculative.TreeSamplingSpec

/-! Tree speculative sampling keeps the target's distribution: the coins with which a
token follows a node fill an area of the token's probability. -/
namespace SglJax.Speculative

open Foundation Foundation.ResidualSampling MeasureTheory Set

namespace SamplingInput

section Coins

variable {K : Type} [Field K] [LinearOrder K] (input : SamplingInput K) (bid v : Nat) (c f : K)

/-- The input with another coin at a node and another final coin. -/
def withCoins : SamplingInput K :=
  { input with
    uniformSamples := Function.update input.uniformSamples bid
      (Function.update (input.uniformSamples bid) v c)
    uniformSamplesForFinalSampling :=
      Function.update input.uniformSamplesForFinalSampling bid f }

/-- The kernel's result with these coins. -/
def resultWith (fuel : Nat) (arrays : SamplingArrays K) : Option (SamplingArrays K) :=
  (input.withCoins bid v c f).treeSpeculativeSamplingTargetOnly fuel arrays

variable {input bid v c f}

theorem nodeAt_withCoins_iff {b w d : Nat} :
    NodeAt (input.withCoins bid v c f) b w d ↔ NodeAt input b w d := by
  constructor
  · intro h
    induction h with
    | root => exact .root
    | child _ hchain hmem ih => exact .child ih hchain hmem
  · intro h
    induction h with
    | root => exact .root
    | child _ hchain hmem ih => exact .child ih hchain hmem

theorem ready_withCoins {arrays : SamplingArrays K} (h : Ready input arrays) :
    Ready (input.withCoins bid v c f) arrays := by
  refine ⟨h.steps, ?_, ?_, h.clean⟩
  · intro b hb
    obtain ⟨hends, honce, hrange, hvocab⟩ := h.trees b hb
    refine ⟨?_, ?_, ?_, ?_⟩
    · exact fun w d hw => hends w d (nodeAt_withCoins_iff.mp hw)
    · exact fun w d e hw hw' =>
        honce w d e (nodeAt_withCoins_iff.mp hw) (nodeAt_withCoins_iff.mp hw')
    · exact fun w d hw => hrange w d (nodeAt_withCoins_iff.mp hw)
    · exact fun w d hw => hvocab w d (nodeAt_withCoins_iff.mp hw)
  · intro b b' w w' d e hb hb' hw hw' heq
    exact h.places b b' w w' d e hb hb' (nodeAt_withCoins_iff.mp hw) (nodeAt_withCoins_iff.mp hw')
      heq

theorem firstAccepted_withCoins (coin : K) (q : Nat → K) (acc : K) (nodes : List Nat) :
    (input.withCoins bid v c f).firstAccepted bid coin q acc nodes =
      input.firstAccepted bid coin q acc nodes := by
  induction nodes generalizing acc with
  | nil => rfl
  | cons node rest ih =>
    rw [firstAccepted, firstAccepted, ih]
    rfl

theorem chosen_withCoins_of_ne {w : Nat} (hne : w ≠ v) :
    (input.withCoins bid v c f).chosen bid w = input.chosen bid w := by
  have hcoin : (input.withCoins bid v c f).uniformSamples bid w = input.uniformSamples bid w := by
    change Function.update input.uniformSamples bid _ bid w = _
    rw [Function.update_self, Function.update_of_ne hne]
  rw [chosen, firstAccepted_withCoins, hcoin]
  rfl

theorem chosen_withCoins_self :
    (input.withCoins bid v c f).chosen bid v =
      input.firstAccepted bid c (input.row bid v) 0 (input.children bid v) := by
  have hcoin : (input.withCoins bid v c f).uniformSamples bid v = c := by
    change Function.update input.uniformSamples bid _ bid v = _
    rw [Function.update_self, Function.update_self]
  rw [chosen, firstAccepted_withCoins, hcoin]
  rfl

/-- The path up to a node does not read the coin of the node. -/
theorem pathFrom_withCoins (htree : IsTree input bid) {rounds u depth k : Nat}
    (hu : NodeAt input bid u depth) (h : (input.pathFrom bid rounds u)[k]? = some v) :
    ((input.withCoins bid v c f).pathFrom bid rounds u)[k]? = some v := by
  induction k generalizing rounds u depth with
  | zero =>
    obtain ⟨rest, hrest⟩ := pathFrom_ne_nil input bid rounds u
    obtain ⟨rest', hrest'⟩ := pathFrom_ne_nil (input.withCoins bid v c f) bid rounds u
    rw [hrest] at h
    rw [hrest']
    exact h
  | succ k ih =>
    have hv := pathFrom_nodeAt htree hu h
    have hne : u ≠ v := by
      rintro rfl
      exact absurd (htree.once u _ _ hu hv) (by omega)
    cases rounds with
    | zero => cases h
    | succ rounds =>
      rw [pathFrom] at h ⊢
      rw [chosen_withCoins_of_ne hne]
      cases hchosen : input.chosen bid u with
      | none =>
        rw [hchosen] at h
        cases h
      | some node =>
        rw [hchosen] at h
        rw [List.getElem?_cons_succ] at h ⊢
        exact ih (nodeAt_chosen htree hu hchosen) h

variable (input bid) in
/-- The run accepts `v` as the `k`-th node, by what it returns. -/
structure Reaches (fuel : Nat) (arrays : SamplingArrays K) (v k : Nat) : Prop where
  node : ∃ depth, NodeAt input bid v depth
  returned : ∃ out, input.treeSpeculativeSamplingTargetOnly fuel arrays = some out ∧
    k ≤ out.acceptTokenNum bid ∧ out.acceptIndex bid k = some (input.retriveIndex bid v)

variable (input bid v c f) in
/-- With these coins the run accepts `v` as the `k`-th node and `x` follows it. -/
def FollowedBy (fuel : Nat) (arrays : SamplingArrays K) (k x : Nat) : Prop :=
  ∃ out, input.resultWith bid v c f fuel arrays = some out ∧ k ≤ out.acceptTokenNum bid ∧
    out.acceptIndex bid k = some (input.retriveIndex bid v) ∧
    out.predicts (input.retriveIndex bid v) = x

/-- What is reached lies on the path. -/
theorem path_of_reaches {fuel : Nat} {arrays : SamplingArrays K} {k : Nat}
    (hready : Ready input arrays) (hfuel : input.numDraftTokens ≤ fuel) (hbid : bid < input.bs)
    (h : Reaches input bid fuel arrays v k) : (input.path bid)[k]? = some v := by
  obtain ⟨⟨depth, hv⟩, out, hout, hk, haccepted⟩ := h
  obtain ⟨out', hout', hsampled⟩ := treeSpeculativeSampling_spec hready hfuel
  rw [hout] at hout'
  cases hout'
  have hs := hsampled bid hbid
  have hlt : k < (input.path bid).length := by
    rw [← hs.count]
    omega
  have hw := List.getElem?_eq_getElem hlt
  have hsame := hs.accepted k _ hw
  rw [haccepted, Option.some.injEq] at hsame
  have hnode := pathFrom_nodeAt (hready.trees bid hbid) .root hw
  rw [(hready.places bid bid v _ depth _ hbid hbid hv hnode hsame).2]
  exact hw

/-- With any coins the same node is reached, and the token after it is the one that
the two coins give. -/
theorem followedBy_iff {fuel : Nat} {arrays : SamplingArrays K} {k : Nat}
    (hready : Ready input arrays) (hfuel : input.numDraftTokens ≤ fuel) (hbid : bid < input.bs)
    (h : Reaches input bid fuel arrays v k) (c f : K) (x : Nat) :
    FollowedBy input bid v c f fuel arrays k x ↔
      (input.withCoins bid v c f).following bid v (decide (k + 1 = input.numSpecStep)) = x := by
  have hpath := pathFrom_withCoins (c := c) (f := f) (hready.trees bid hbid) .root
    (path_of_reaches hready hfuel hbid h)
  have hready' : Ready (input.withCoins bid v c f) arrays := ready_withCoins hready
  obtain ⟨out, hout, hsampled⟩ := treeSpeculativeSampling_spec hready' hfuel
  have hs := hsampled bid hbid
  have htoken := hs.tokens k v hpath
  have hcount : k ≤ out.acceptTokenNum bid := by
    have hlt := (List.getElem?_eq_some_iff.mp hpath).1
    have := hs.count
    rw [path] at this
    change k < (pathFrom _ bid ((input.withCoins bid v c f).numSpecStep - 1) 0).length at hlt
    omega
  constructor
  · rintro ⟨out', hout', -, -, hx⟩
    have heq := hout.symm.trans hout'
    cases heq
    rw [← hx]
    exact htoken.symm
  · intro hx
    exact ⟨out, hout, hcount, hs.accepted k v hpath, htoken.trans hx⟩

/-- The root is reached by every run. -/
theorem reaches_root {fuel : Nat} {arrays : SamplingArrays K} (hready : Ready input arrays)
    (hfuel : input.numDraftTokens ≤ fuel) (hbid : bid < input.bs) :
    Reaches input bid fuel arrays 0 0 := by
  obtain ⟨out, hout, hsampled⟩ := treeSpeculativeSampling_spec hready hfuel
  obtain ⟨rest, hrest⟩ := pathFrom_ne_nil input bid (input.numSpecStep - 1) 0
  refine ⟨⟨0, .root⟩, out, hout, Nat.zero_le _, (hsampled bid hbid).accepted 0 0 ?_⟩
  rw [path, hrest]
  rfl

section Thresholds

variable [IsStrictOrderedRing K]

/-- With both thresholds at 1 and a coin of at most 1, the children are tried against
their running sum alone. -/
theorem firstAccepted_eq (hsingle : input.thresholdSingle = 1) (hthreshold : input.thresholdAcc = 1)
    {coin : K} (hcoin : coin ≤ 1) {q : Nat → K} {acc : K} (hacc : 0 ≤ acc) {nodes : List Nat}
    (hq : ∀ node ∈ nodes, 0 ≤ q (input.candidates bid node)) :
    (input.firstAccepted bid coin q acc nodes).map (input.candidates bid) =
      tryInOrder q coin acc (nodes.map (input.candidates bid)) := by
  induction nodes generalizing acc with
  | nil => rfl
  | cons node rest ih =>
    have hp := hq node List.mem_cons_self
    rw [firstAccepted, List.map_cons, tryInOrder, hsingle, hthreshold, div_one]
    have hsure : (coin ≤ acc + q (input.candidates bid node) ∨
        1 ≤ q (input.candidates bid node)) ↔ coin ≤ acc + q (input.candidates bid node) :=
      or_iff_left_of_imp fun hone => by linarith
    by_cases hle : coin ≤ acc + q (input.candidates bid node)
    · rw [if_pos (hsure.mpr hle), if_pos hle]
      rfl
    · rw [if_neg (mt hsure.mp hle), if_neg hle]
      exact ih (add_nonneg hacc hp) fun other hother => hq other (List.mem_cons_of_mem _ hother)

theorem samplingFromProb_leftOver {q : Nat → K} {vocabSize : Nat} (hq : ∀ t < vocabSize, 0 ≤ q t)
    (rejected : List Nat) (f : K) :
    samplingFromProb vocabSize (leftOver q rejected)
        (f * mass (leftOver q rejected) vocabSize) =
      firstAbove (ResidualSampling.residual q rejected)
        (f * mass (ResidualSampling.residual q rejected) vocabSize) vocabSize := by
  have hsame (t : Nat) (ht : t < vocabSize) :
      leftOver q rejected t = ResidualSampling.residual q rejected t := by
    unfold leftOver ResidualSampling.residual
    split
    · rw [sub_self, max_self]
    · rw [sub_zero, max_eq_left (hq t ht)]
  rw [samplingFromProb, mass_congr hsame]
  apply firstAbove_congr
  intro t ht
  rw [hsame t ht]
  split
  · rfl
  · rename_i hnot
    exact le_antisymm (residual_nonneg hq rejected t ht) (not_lt.mp hnot)

/-- The token after a node is drawn from its row, with its children as candidates. -/
theorem following_withCoins (hsingle : input.thresholdSingle = 1)
    (hthreshold : input.thresholdAcc = 1) (htree : IsTree input bid) {depth : Nat}
    (hv : NodeAt input bid v depth) (hprob : IsProb (input.row bid v) input.vocabSize) (last : Bool)
    {c : K} (hc : c ≤ 1) (f : K) :
    (input.withCoins bid v c f).following bid v last =
      draw (input.row bid v) input.vocabSize
        (if last then [] else (input.children bid v).map (input.candidates bid)) c f := by
  have hfinal (w : Nat → K) : (input.withCoins bid v c f).drawFrom bid w =
      samplingFromProb input.vocabSize w (f * mass w input.vocabSize) := by
    unfold drawFrom
    change samplingFromProb input.vocabSize w
      (Function.update input.uniformSamplesForFinalSampling bid f bid * _) = _
    rw [Function.update_self]
    rfl
  cases last with
  | true =>
    rw [following, if_pos rfl, if_pos rfl, hfinal]
    exact samplingFromProb_leftOver hprob.nonneg []
      f
  | false =>
    have hq : ∀ node ∈ input.children bid v, 0 ≤ input.row bid v (input.candidates bid node) :=
      fun node hnode => hprob.nonneg _ (htree.inVocab node depth (htree.nodeAt_child hv hnode))
    have htry := firstAccepted_eq hsingle hthreshold hc le_rfl hq
    rw [following, if_neg (by simp), if_neg (by simp), chosen_withCoins_self, draw, ← htry]
    cases input.firstAccepted bid c (input.row bid v) 0 (input.children bid v) with
    | some node => rfl
    | none => exact (hfinal _).trans (samplingFromProb_leftOver hprob.nonneg _ f)

end Thresholds

end Coins

/-- At every node that the run reaches, the coin of the node and the final coin give
each token as the next one on an area of its probability. -/
theorem token_area (input : SamplingInput ℝ) (arrays : SamplingArrays ℝ)
    (hready : Ready input arrays) (hsingle : input.thresholdSingle = 1)
    (hthreshold : input.thresholdAcc = 1)
    (hprobs : ∀ row < input.bs * input.numDraftTokens,
      IsProb (input.targetProbs row) input.vocabSize)
    (fuel : Nat) (hfuel : input.numDraftTokens ≤ fuel) (bid : Nat) (hbid : bid < input.bs)
    (v k : Nat) (hreach : Reaches input bid fuel arrays v k) (x : Nat)
    (hx : x < input.vocabSize) :
    volume {p : ℝ × ℝ | p ∈ Icc (0 : ℝ) 1 ×ˢ Icc (0 : ℝ) 1 ∧
        FollowedBy input bid v p.1 p.2 fuel arrays k x} =
      ENNReal.ofReal (input.targetProbs (bid * input.numDraftTokens + v) x) := by
  obtain ⟨depth, hv⟩ := hreach.node
  have htree := hready.trees bid hbid
  have hlt := htree.inRange v depth hv
  have hrow : bid * input.numDraftTokens + v < input.bs * input.numDraftTokens := by
    have := Nat.mul_le_mul_right input.numDraftTokens hbid
    rw [Nat.succ_mul] at this
    omega
  have hprob : IsProb (input.row bid v) input.vocabSize := hprobs _ hrow
  obtain ⟨-, hnodup, -⟩ := htree.children_spec hv
  generalize hcandidates : (if decide (k + 1 = input.numSpecStep) = true then []
    else (input.children bid v).map (input.candidates bid)) = candidates
  have hdistinct : candidates.Nodup := by
    rw [← hcandidates]
    split
    · exact List.nodup_nil
    · exact hnodup
  have hvocab : ∀ t ∈ candidates, t < input.vocabSize := by
    rw [← hcandidates]
    intro t ht
    split at ht
    · cases ht
    · obtain ⟨node, hnode, rfl⟩ := List.mem_map.mp ht
      exact htree.inVocab node depth (htree.nodeAt_child hv hnode)
  have hset : {p : ℝ × ℝ | p ∈ Icc (0 : ℝ) 1 ×ˢ Icc (0 : ℝ) 1 ∧
      FollowedBy input bid v p.1 p.2 fuel arrays k x} =
      Icc (0 : ℝ) 1 ×ˢ Icc (0 : ℝ) 1 ∩
        {p | draw (input.row bid v) input.vocabSize candidates p.1 p.2 = x} := by
    ext p
    refine and_congr_right fun hp => ?_
    rw [followedBy_iff hready hfuel hbid hreach,
      following_withCoins hsingle hthreshold htree hv hprob _ hp.1.2, hcandidates]
    rfl
  rw [hset, volume_draw hprob hdistinct hvocab hx]
  rfl

/-! A root with one child, over two tokens of equal probability. -/

section OneChild

variable (K : Type) [Field K]

def oneChild : SamplingInput K where
  bs := 1
  numSpecStep := 2
  numDraftTokens := 2
  vocabSize := 2
  candidates _ _ := 0
  retriveIndex _ v := v
  retriveNextToken _ v := if v = 0 then some 1 else none
  retriveNextSibling _ _ := none
  uniformSamples _ _ := 1 / 4
  uniformSamplesForFinalSampling _ := 3 / 4
  targetProbs _ _ := 1 / 2
  thresholdSingle := 1
  thresholdAcc := 1

def emptyArrays : SamplingArrays K where
  acceptIndex _ _ := none
  acceptTokenNum _ := 0
  predicts _ := 0
  draftProbs _ _ := 0

variable {K}

theorem oneChild_nodeAt {v d : Nat} (h : NodeAt (oneChild K) 0 v d) : v = d ∧ v < 2 := by
  induction h with
  | root => exact ⟨rfl, by omega⟩
  | child _ hchain hmem ih =>
    rename_i u d node nodes _
    cases nodes with
    | nil => cases hmem
    | cons first rest =>
      obtain ⟨hfirst, hrest⟩ := hchain
      rw [oneChild] at hfirst
      dsimp only at hfirst
      split at hfirst
      · cases hfirst
        cases rest with
        | nil =>
          rw [List.mem_singleton.mp hmem]
          omega
        | cons second rest => cases hrest.1
      · cases hfirst

theorem oneChild_ready : Ready (oneChild K) (emptyArrays K) := by
  refine ⟨Nat.zero_lt_two, ?_, ?_, fun _ _ => rfl⟩
  · intro bid hbid
    rw [Nat.lt_one_iff.mp hbid]
    refine ⟨?_, ?_, ?_, ?_⟩
    · intro v d hv
      obtain ⟨rfl, hv⟩ := oneChild_nodeAt hv
      match v with
      | 0 => exact ⟨[1], ⟨rfl, rfl⟩, List.nodup_singleton _⟩
      | v + 1 => exact ⟨[], rfl, List.nodup_nil⟩
    · intro v d d' hv hv'
      exact (oneChild_nodeAt hv).1.symm.trans (oneChild_nodeAt hv').1
    · exact fun v d hv => (oneChild_nodeAt hv).2
    · exact fun _ _ _ => Nat.zero_lt_two
  · intro bid bid' v w d e hbid hbid' _ _ heq
    rw [Nat.lt_one_iff.mp hbid, Nat.lt_one_iff.mp hbid']
    exact ⟨rfl, heq⟩

end OneChild

theorem oneChild_area :
    volume {p : ℝ × ℝ | p ∈ Icc (0 : ℝ) 1 ×ˢ Icc (0 : ℝ) 1 ∧
      FollowedBy (oneChild ℝ) 0 0 p.1 p.2 2 (emptyArrays ℝ) 0 0} = ENNReal.ofReal (1 / 2) := by
  refine token_area (oneChild ℝ) (emptyArrays ℝ) oneChild_ready rfl rfl ?_ 2 le_rfl 0
    (by decide) 0 0 (reaches_root oneChild_ready le_rfl (by decide)) 0 (by decide)
  intro row _
  refine ⟨fun _ _ => ?_, ?_⟩
  · change (0 : ℝ) ≤ 1 / 2
    norm_num
  · change ((List.range 2).map fun _ => (1 / 2 : ℝ)).sum = 1
    norm_num [List.range_succ]

end SamplingInput
end SglJax.Speculative
