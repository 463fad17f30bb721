import SglJax.Eplb.BalancedPacking
import SglJax.Foundation.Replicas

/-! What the balancer gives for a layer: every logical expert has replicas with the ranks
below its count, and each of them has one physical place. -/
namespace SglJax.Eplb

open Foundation

variable (np : NumPy)

/-- The arrays of a replication as functions of the place and of the expert. -/
def replicationOf (numPhy numLog : Nat) (holds rank count : Nat → Nat) : Replication where
  phy2log := tab numPhy fun p => (holds p : Int)
  rank := tab numPhy fun p => (rank p : Int)
  logcnt := tab numLog fun e => (count e : Int)

/-- A redundant place takes one of the experts, with the next rank. -/
theorem addReplica_eq {weight : List np.Num} (hne : weight ≠ []) (numPhy i : Nat)
    (holds rank count : Nat → Nat) :
    ∃ e < weight.length,
      addReplica np weight (replicationOf numPhy weight.length holds rank count) i =
        .ok (replicationOf numPhy weight.length (Function.update holds i e)
          (Function.update rank i (count e)) (Function.update count e (count e + 1))) := by
  let loads := List.zipWith np.div weight
    ((tab weight.length fun e => (count e : Int)).map np.ofInt)
  have hlength : loads.length = weight.length := by
    simp [loads]
  have hlt : np.argmax loads < weight.length := by
    rw [← hlength]
    apply np.argmax_lt
    intro hnil
    rw [hnil] at hlength
    exact hne (List.length_eq_zero_iff.1 hlength.symm)
  refine ⟨np.argmax loads, hlt, ?_⟩
  unfold addReplica
  rw [if_neg hne]
  have hnext : (count (np.argmax loads) : Int) + 1 = ((count (np.argmax loads) + 1 : Nat) : Int) := by
    omega
  unfold replicationOf
  simp only [loads, getD_tab hlt, set_tab_natCast] at hnext ⊢
  rw [hnext, set_tab_natCast]

theorem addReplicas_eq {weight : List np.Num} (hne : weight ≠ []) (numPhy k : Nat) {i : Nat}
    {holds rank count : Nat → Nat} (h : Replicated weight.length i holds rank count) :
    ∃ holds' rank' count', Replicated weight.length (i + k) holds' rank' count' ∧
      (List.range' i k).foldlM (addReplica np weight)
        (replicationOf numPhy weight.length holds rank count) =
          .ok (replicationOf numPhy weight.length holds' rank' count') := by
  induction k generalizing i holds rank count with
  | zero => exact ⟨holds, rank, count, h, rfl⟩
  | succ k ih =>
    obtain ⟨e, he, heq⟩ := addReplica_eq np hne numPhy i holds rank count
    obtain ⟨holds', rank', count', hall, hrun⟩ := ih (h.add he)
    refine ⟨holds', rank', count', ?_, ?_⟩
    · have hsum : i + (k + 1) = i + 1 + k := by omega
      rwa [hsum]
    · rw [List.range'_succ, List.foldlM_cons, heq]
      exact hrun

theorem replicateExperts_eq {weight : List np.Num} (hne : weight ≠ []) {numPhy : Nat}
    (hle : weight.length ≤ numPhy) :
    ∃ holds rank count, Replicated weight.length numPhy holds rank count ∧
      replicateExperts np weight numPhy =
        .ok (replicationOf numPhy weight.length holds rank count) := by
  obtain ⟨holds, rank, count, hall, hrun⟩ := addReplicas_eq np hne numPhy
    (numPhy - weight.length) (Replicated.single weight.length)
  have hsum : weight.length + (numPhy - weight.length) = numPhy := by omega
  rw [hsum] at hall
  refine ⟨holds, rank, count, hall, ?_⟩
  have hstart : ({
      phy2log := arange numPhy
      rank := List.replicate numPhy 0
      logcnt := List.replicate weight.length 1 } : Replication) =
        replicationOf numPhy weight.length id (fun _ => 0) (fun _ => 1) := by
    rw [replicate_eq_tab, replicate_eq_tab]
    rfl
  unfold replicateExperts
  rw [require_true (decide_eq_true hle), hstart]
  exact hrun

theorem inverse_eq {n : Nat} {σ : Nat → Nat} (h : Permutes n σ) :
    ∃ τ, Permutes n τ ∧ (∀ i < n, τ (σ i) = i) ∧ (∀ j < n, σ (τ j) = j) ∧
      inverse np (tab n fun i => (σ i : Int)) = .ok (tab n fun j => (τ j : Int)) := by
  obtain ⟨τ, hτ, hleft, hright, hwrite⟩ := h.inverse np.uninitialized
  refine ⟨τ, hτ, hleft, hright, ?_⟩
  unfold inverse arange
  rw [length_tab, putAlongAxis_tab h.maps, tab_congr hwrite]

/-- The arrays of a node: its places hold replicas of all its experts. -/
theorem rebalanceNode_eq {tokens : List np.Num} (hne : tokens ≠ []) {numPhy numPacks : Nat}
    (hle : tokens.length ≤ numPhy) (hpos : 0 < numPacks) (hdvd : numPhy % numPacks = 0) :
    ∃ holds rank count, Replicated tokens.length numPhy holds rank count ∧
      rebalanceNode np numPhy numPacks (numPhy / numPacks) tokens =
        .ok (replicationOf numPhy tokens.length holds rank count) := by
  obtain ⟨holds, rank, count, hall, hreplicas⟩ := replicateExperts_eq np hne hle
  let loads := List.zipWith np.div tokens
    ((tab tokens.length fun e => (count e : Int)).map np.ofInt)
  have hlength : loads.length = tokens.length := by
    simp [loads]
  have hloads := eq_tab loads np.zero
  rw [hlength] at hloads
  let tokensPerPhy := tab numPhy ((fun i => loads.getD i np.zero) ∘ holds)
  have htake : takeAlongAxis loads (tab numPhy fun p => (holds p : Int)) = .ok tokensPerPhy := by
    rw [hloads]
    exact takeAlongAxis_tab hall.holds_lt
  have hphy : tokensPerPhy.length = numPhy := length_tab ..
  obtain ⟨pack, place, hpacked, hpacking⟩ :=
    balancedPacking_eq np tokensPerPhy hpos (by rwa [hphy])
  rw [hphy] at hpacked hpacking
  obtain ⟨τ, hτ, -, -, hinverse⟩ := inverse_eq np (hpacked.permutes hdvd)
  refine ⟨holds ∘ τ, rank ∘ τ, count, hall.reorder hτ, ?_⟩
  have hplaces : List.zipWith (fun (pack rank : Int) => pack * ((numPhy / numPacks : Nat) : Int) + rank)
      (tab numPhy fun g => (pack g : Int)) (tab numPhy fun g => (place g : Int)) =
        tab numPhy fun g => ((pack g * (numPhy / numPacks) + place g : Nat) : Int) := by
    rw [zipWith_tab]
    apply tab_congr
    intro g hg
    push_cast
    rfl
  unfold rebalanceNode
  rw [hreplicas, ok_bind]
  unfold replicationOf
  rw [htake, ok_bind, hpacking, ok_bind, hplaces]
  dsimp only
  rw [hinverse, ok_bind, takeAlongAxis_tab hτ.maps, ok_bind, takeAlongAxis_tab hτ.maps, ok_bind]
  rfl

/-- The groups packed to the nodes: the experts are renamed in blocks of a group. -/
theorem logToMlog_eq (weight : List np.Num) {numGroups groupSize numNodes : Nat}
    (hsize : 0 < groupSize) (hpos : 0 < numNodes) (hdvd : numGroups % numNodes = 0) :
    ∃ σ, Permutes (numGroups * groupSize) σ ∧
      logToMlog np weight numGroups groupSize numNodes (numGroups / numNodes) =
        .ok (tab (numGroups * groupSize) fun e => (σ e : Int)) := by
  let tokensPerGroup := (reshape numGroups groupSize weight).map np.sum
  have hlength : tokensPerGroup.length = numGroups := by
    simp [tokensPerGroup, reshape]
  obtain ⟨pack, place, hpacked, hpacking⟩ :=
    balancedPacking_eq np tokensPerGroup hpos (by rwa [hlength])
  rw [hlength] at hpacked hpacking
  let place' := fun g => pack g * (numGroups / numNodes) + place g
  have hgroups : Permutes numGroups place' := hpacked.permutes hdvd
  refine ⟨fun e => place' (e / groupSize) * groupSize + e % groupSize, hgroups.blocks hsize, ?_⟩
  unfold logToMlog
  dsimp only
  rw [hpacking, ok_bind, zipWith_tab]
  have hrows : ∀ g < numGroups, (arange groupSize).map (fun j =>
      ((pack g : Int) * ((numGroups / numNodes : Nat) : Int) + (place g : Int)) *
        (groupSize : Int) + j) =
      tab groupSize fun j => ((place' g * groupSize + j : Nat) : Int) := fun g hg => by
    unfold arange
    rw [map_tab]
    apply tab_congr
    intro j hj
    simp only [place', Function.comp_apply]
    push_cast
    rfl
  rw [tab_congr hrows, flatten_tab hsize]

/-- The sizes on one node. -/
private theorem node_sizes {numLog numPhy numGroups numNodes numGpus : Nat} (hpos : 0 < numLog)
    (hle : numLog ≤ numPhy) (hexperts : numLog % numGroups = 0) (hnodes : 0 < numNodes)
    (hgroup : numGroups % numNodes = 0) (hgpus : 0 < numGpus) (hgpu : numGpus % numNodes = 0)
    (hphy : numPhy % numGpus = 0) :
    numNodes * (numLog / numNodes) = numLog ∧ 0 < numLog / numNodes ∧
      numNodes * (numPhy / numNodes) = numPhy ∧ numLog / numNodes ≤ numPhy / numNodes ∧
      0 < numGpus / numNodes ∧ numPhy / numNodes % (numGpus / numNodes) = 0 ∧
      numPhy / numGpus = numPhy / numNodes / (numGpus / numNodes) := by
  obtain ⟨gpusPerNode, rfl⟩ := Nat.dvd_of_mod_eq_zero hgpu
  obtain ⟨groupsPerNode, rfl⟩ := Nat.dvd_of_mod_eq_zero hgroup
  obtain ⟨groupSize, rfl⟩ := Nat.dvd_of_mod_eq_zero hexperts
  obtain ⟨perGpu, rfl⟩ := Nat.dvd_of_mod_eq_zero hphy
  have hgpusPerNode : 0 < gpusPerNode := Nat.pos_of_mul_pos_left hgpus
  have hlog : numNodes * groupsPerNode * groupSize / numNodes = groupsPerNode * groupSize := by
    rw [Nat.mul_assoc, Nat.mul_div_cancel_left _ hnodes]
  have hplaces : numNodes * gpusPerNode * perGpu / numNodes = gpusPerNode * perGpu := by
    rw [Nat.mul_assoc, Nat.mul_div_cancel_left _ hnodes]
  refine ⟨?_, ?_, ?_, Nat.div_le_div_right hle, ?_, ?_, ?_⟩
  · rw [hlog, Nat.mul_assoc]
  · rw [hlog]
    rw [Nat.mul_assoc] at hpos
    exact Nat.pos_of_mul_pos_left hpos
  · rw [hplaces, Nat.mul_assoc]
  · rw [Nat.mul_div_cancel_left _ hnodes]
    exact hgpusPerNode
  · rw [hplaces, Nat.mul_div_cancel_left _ hnodes]
    exact Nat.mul_mod_right ..
  · rw [hplaces, Nat.mul_div_cancel_left _ hnodes, Nat.mul_div_cancel_left _ hgpus,
      Nat.mul_div_cancel_left _ hgpusPerNode]

/-- The arrays of a layer: its places hold replicas of all its experts. -/
theorem rebalanceLayer_eq {weight : List np.Num} {numPhy numGroups numNodes numGpus : Nat}
    (hne : weight ≠ []) (hle : weight.length ≤ numPhy) (hgroups : 0 < numGroups)
    (hexperts : weight.length % numGroups = 0) (hnodes : 0 < numNodes)
    (hgroup : numGroups % numNodes = 0) (hgpus : 0 < numGpus) (hgpu : numGpus % numNodes = 0)
    (hphy : numPhy % numGpus = 0) :
    ∃ holds rank count, Replicated weight.length numPhy holds rank count ∧
      rebalanceLayer np numPhy numGroups numNodes numGpus weight =
        .ok (replicationOf numPhy weight.length holds rank count) := by
  have hpos : 0 < weight.length := List.length_pos_of_ne_nil hne
  obtain ⟨hnumLog, hperNode, hnumPhy, hroom, hgpusPerNode, hplaces, hperGpu⟩ :=
    node_sizes hpos hle hexperts hnodes hgroup hgpus hgpu hphy
  have hgroupSize : numGroups * (weight.length / numGroups) = weight.length :=
    Nat.mul_div_cancel' (Nat.dvd_of_mod_eq_zero hexperts)
  have hsize : 0 < weight.length / numGroups := by
    apply Nat.pos_of_ne_zero
    intro hzero
    rw [hzero] at hgroupSize
    omega
  obtain ⟨σ, hσ, hlog2mlog⟩ := logToMlog_eq np weight hsize hnodes hgroup
  rw [hgroupSize] at hσ hlog2mlog
  obtain ⟨τ, hτ, hleft, hright, hinverse⟩ := inverse_eq np hσ
  let perNode := weight.length / numNodes
  let phyPerNode := numPhy / numNodes
  let load := fun i => weight.getD i np.zero
  have htokens : takeAlongAxis weight (tab weight.length fun j => (τ j : Int)) =
      .ok (tab (numNodes * perNode) (load ∘ τ)) := by
    rw [hnumLog]
    conv =>
      lhs
      rw [eq_tab weight np.zero]
    rw [length_tab]
    exact takeAlongAxis_tab hτ.maps
  have hnode : ∀ n < numNodes, ∃ holds rank count, Replicated perNode phyPerNode holds rank count ∧
      rebalanceNode np phyPerNode (numGpus / numNodes) (phyPerNode / (numGpus / numNodes))
        (tab perNode fun j => (load ∘ τ) (n * perNode + j)) =
          .ok (replicationOf phyPerNode perNode holds rank count) := fun n hn => by
    have htab : (tab perNode fun j => (load ∘ τ) (n * perNode + j)).length = perNode := length_tab ..
    have hnode := rebalanceNode_eq np (List.ne_nil_of_length_pos (by rwa [htab])) (by rwa [htab])
      hgpusPerNode hplaces
    rwa [htab] at hnode
  choose! holds rank count hnode using hnode
  have hblocks := Replicated.blocks hperNode (hperNode.trans_le hroom) fun n hn => (hnode n hn).1
  rw [hnumLog, hnumPhy] at hblocks
  refine ⟨_, _, _, hblocks.relabel hσ.maps hτ.maps hleft hright, ?_⟩
  have hrows : (reshape numNodes perNode (tab (numNodes * perNode) (load ∘ τ))).mapM
      (rebalanceNode np phyPerNode (numGpus / numNodes) (numPhy / numGpus)) =
        .ok (tab numNodes fun n => replicationOf phyPerNode perNode (holds n) (rank n) (count n)) := by
    rw [reshape_tab, hperGpu]
    exact mapM_tab fun n hn => (hnode n hn).2
  have hplaced : (List.zipWith (fun (start : Int) (node : Replication) => node.phy2log.map (· + start))
      (tab numNodes fun n => ((n * perNode : Nat) : Int))
      (tab numNodes fun n =>
        replicationOf phyPerNode perNode (holds n) (rank n) (count n))).flatten =
      tab numPhy fun p =>
        ((holds (p / phyPerNode) (p % phyPerNode) + p / phyPerNode * perNode : Nat) : Int) := by
    have hnodes' : ∀ n < numNodes,
        (replicationOf phyPerNode perNode (holds n) (rank n) (count n)).phy2log.map
          (· + ((n * perNode : Nat) : Int)) =
        tab phyPerNode fun q => ((holds n q + n * perNode : Nat) : Int) := fun n hn => by
      unfold replicationOf
      rw [map_tab]
      apply tab_congr
      intro q hq
      simp only [Function.comp_apply]
      push_cast
      rfl
    rw [zipWith_tab, tab_congr hnodes', flatten_tab (hperNode.trans_le hroom), hnumPhy]
  have hranks : ((tab numNodes fun n =>
      replicationOf phyPerNode perNode (holds n) (rank n) (count n)).map Replication.rank).flatten =
      tab numPhy fun p => (rank (p / phyPerNode) (p % phyPerNode) : Int) := by
    rw [map_tab]
    show (tab numNodes fun n => tab phyPerNode fun q => (rank n q : Int)).flatten = _
    rw [flatten_tab (hperNode.trans_le hroom), hnumPhy]
  have hcounts : ((tab numNodes fun n =>
      replicationOf phyPerNode perNode (holds n) (rank n) (count n)).map Replication.logcnt).flatten =
      tab weight.length fun e => (count (e / perNode) (e % perNode) : Int) := by
    rw [map_tab]
    show (tab numNodes fun n => tab perNode fun e => (count n e : Int)).flatten = _
    rw [flatten_tab hperNode, hnumLog]
  unfold rebalanceLayer
  dsimp only
  rw [divisible_eq hgroups hexperts, ok_bind, require_true rfl, ok_bind, floordiv_eq hgroups, ok_bind,
    divisible_eq hnodes hgroup, ok_bind, require_true rfl, ok_bind, floordiv_eq hnodes, ok_bind,
    divisible_eq hnodes hgpu, ok_bind, require_true rfl, ok_bind, divisible_eq hgpus hphy, ok_bind,
    require_true rfl, ok_bind, floordiv_eq hgpus, ok_bind, hlog2mlog, ok_bind, hinverse, ok_bind,
    htokens, ok_bind, hrows, ok_bind, hplaced, takeAlongAxis_tab hblocks.holds_lt, ok_bind, hranks,
    hcounts, takeAlongAxis_tab hσ.maps, ok_bind]
  rfl

end SglJax.Eplb
