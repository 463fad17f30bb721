import SglJax.Eplb.ExpertLocation
import SglJax.Eplb.ExpertReplicas

/-! The two maps of the metadata agree: the row of a logical expert lists its physical
experts, and then it is padded. -/
namespace SglJax.Eplb

open Foundation

/-- `row` lists the places of `e` without repetition, at least one, and then only pads. -/
def ReplicaRow (map : List Int) (e : Nat) (row : List Int) : Prop :=
  ∃ (ps : List Nat) (pad : Nat), row = ps.map (fun p : Nat => (p : Int)) ++ List.replicate pad (-1) ∧
    ps ≠ [] ∧ ps.Nodup ∧ ∀ p, p ∈ ps ↔ map[p]? = some (e : Int)

/-- The maps of a layer agree. -/
structure LayerMaps (numLog numPhy : Nat) (map : List Int) (rows : List (List Int)) : Prop where
  places : map.length = numPhy
  experts : rows.length = numLog
  listed : ∀ e row, rows[e]? = some row → ReplicaRow map e row

/-- The maps agree in each layer. -/
def Maps (numLog numPhy : Nat) : List (List Int) → List (List (List Int)) → Prop :=
  List.Forall₂ (LayerMaps numLog numPhy)

theorem maxOf_spec {l : List Int} (h : l ≠ []) : ∃ m, maxOf l = .ok m ∧ ∀ x ∈ l, x ≤ m := by
  cases l with
  | nil => contradiction
  | cons x xs =>
    refine ⟨xs.foldl max x, rfl, ?_⟩
    induction xs generalizing x with
    | nil =>
      intro y hy
      exact (List.mem_singleton.1 hy).le
    | cons z zs ih =>
      have hnext := ih (max x z) (by simp)
      intro y hy
      rw [List.foldl_cons]
      have hfirst := hnext (max x z) (by simp)
      rcases List.mem_cons.1 hy with rfl | hy
      · exact (le_max_left y z).trans hfirst
      · rcases List.mem_cons.1 hy with rfl | hy
        · exact (le_max_right x y).trans hfirst
        · exact hnext y (by simp [hy])

theorem getElem?_tab_eq {α : Type} {n i : Nat} {f : Nat → α} {v : α} :
    (tab n f)[i]? = some v ↔ i < n ∧ f i = v := by
  by_cases h : i < n
  · rw [getElem?_tab h]
    simp [h]
  · rw [List.getElem?_eq_none (by simpa using h)]
    simp [h]

/-- The table of a layer that the balancer writes. -/
theorem logToPhy_maps {numPhy numLog maxlogcnt : Nat} {holds rank count : Nat → Nat}
    (h : Replicated numLog numPhy holds rank count) (hmax : ∀ e < numLog, count e ≤ maxlogcnt) :
    ∃ rows, logToPhy numLog maxlogcnt (replicationOf numPhy numLog holds rank count) = .ok rows ∧
      LayerMaps numLog numPhy (replicationOf numPhy numLog holds rank count).phy2log rows := by
  let place := fun p => holds p * maxlogcnt + rank p
  have hplace : ∀ p < numPhy, place p < numLog * maxlogcnt := fun p hp => by
    have hrank := (h.rank_lt p hp).trans_le (hmax _ (h.holds_lt p hp))
    calc place p < holds p * maxlogcnt + maxlogcnt := Nat.add_lt_add_left hrank _
      _ = (holds p + 1) * maxlogcnt := by rw [Nat.succ_mul]
      _ ≤ numLog * maxlogcnt := Nat.mul_le_mul_right _ (h.holds_lt p hp)
  have hindices : List.zipWith (fun expert rank : Int => expert * (maxlogcnt : Int) + rank)
      (tab numPhy fun p => (holds p : Int)) (tab numPhy fun p => (rank p : Int)) =
        tab numPhy fun p => (place p : Int) := by
    rw [zipWith_tab]
    apply tab_congr
    intro p hp
    simp only [place]
    push_cast
    rfl
  let table := tab numLog fun e => tab maxlogcnt fun k =>
    scattered (fun _ => (-1 : Int)) place (fun p => (p : Int)) numPhy (e * maxlogcnt + k)
  refine ⟨table, ?_, ?_, ?_, ?_⟩
  · unfold logToPhy replicationOf arange
    dsimp only
    rw [hindices, length_tab, replicate_eq_tab, putAlongAxis_tab hplace, ok_bind, reshape_tab]
  · exact length_tab ..
  · exact length_tab ..
  · intro e row hrow
    obtain ⟨he, rfl⟩ := getElem?_tab_eq.1 hrow
    obtain ⟨ps, hlen, hnodup, hmem, heq⟩ := h.table_row hmax (-1) he
    refine ⟨ps, maxlogcnt - count e, heq, ?_, hnodup, ?_⟩
    · apply List.ne_nil_of_length_pos
      rw [hlen]
      exact h.count_pos e he
    · intro p
      rw [hmem]
      show _ ↔ (tab numPhy fun p => (holds p : Int))[p]? = some (e : Int)
      rw [getElem?_tab_eq, Int.natCast_inj]

/-- What the balancer needs of the sizes. -/
structure Divides (numLog numPhy numGroups numNodes numGpus : Nat) : Prop where
  room : numLog ≤ numPhy
  groups : 0 < numGroups
  experts : numLog % numGroups = 0
  nodes : 0 < numNodes
  group : numGroups % numNodes = 0
  gpus : 0 < numGpus
  gpu : numGpus % numNodes = 0
  places : numPhy % numGpus = 0

/-- The arrays of a layer come from a replication of all its experts. -/
def Balanced (numLog numPhy : Nat) (layer : Replication) : Prop :=
  ∃ holds rank count, Replicated numLog numPhy holds rank count ∧
    layer = replicationOf numPhy numLog holds rank count

theorem rebalanceLayers_eq (np : NumPy) {weight : List (List np.Num)}
    {numLog numPhy numGroups numNodes numGpus : Nat}
    (h : Divides numLog numPhy numGroups numNodes numGpus) (hpos : 0 < numLog)
    (hrect : ∀ row ∈ weight, row.length = numLog) :
    ∃ layers, weight.mapM (rebalanceLayer np numPhy numGroups numNodes numGpus) = .ok layers ∧
      List.Forall₂ (fun _ layer => Balanced numLog numPhy layer) weight layers := by
  apply mapM_forall₂
  intro row hrow
  have hlen := hrect row hrow
  have hne : row ≠ [] := List.ne_nil_of_length_pos (by rwa [hlen])
  obtain ⟨holds, rank, count, hall, heq⟩ := rebalanceLayer_eq np hne (by rw [hlen]; exact h.room)
    h.groups (by rw [hlen]; exact h.experts) h.nodes h.group h.gpus h.gpu h.places
  rw [hlen] at hall heq
  exact ⟨_, heq, holds, rank, count, hall, rfl⟩

/-- The arrays that the balancer gives, from those of the layers. -/
theorem tables_maps {layers : List Replication} {numLog numPhy : Nat} (hpos : 0 < numLog)
    (hne : layers ≠ []) (h : ∀ layer ∈ layers, Balanced numLog numPhy layer) :
    ∃ maxlogcnt tables, maxOf (layers.map Replication.logcnt).flatten = .ok maxlogcnt ∧
      layers.mapM (logToPhy numLog maxlogcnt.toNat) = .ok tables ∧
      Maps numLog numPhy (layers.map Replication.phy2log) tables := by
  have hcounts : (layers.map Replication.logcnt).flatten ≠ [] := by
    cases layers with
    | nil => contradiction
    | cons layer layers =>
      obtain ⟨holds, rank, count, -, rfl⟩ := h layer (by simp)
      intro hnil
      have hlen := congrArg List.length hnil
      simp only [List.map_cons, List.flatten_cons, List.length_append, replicationOf, length_tab,
        List.length_nil] at hlen
      omega
  obtain ⟨maxlogcnt, hmax, hle⟩ := maxOf_spec hcounts
  have htable : ∀ layer ∈ layers, ∃ rows, logToPhy numLog maxlogcnt.toNat layer = .ok rows ∧
      LayerMaps numLog numPhy layer.phy2log rows := fun layer hlayer => by
    obtain ⟨holds, rank, count, hall, rfl⟩ := h layer hlayer
    apply logToPhy_maps hall
    intro e he
    have hmem : (count e : Int) ∈ (layers.map Replication.logcnt).flatten := by
      rw [List.mem_flatten]
      refine ⟨_, List.mem_map_of_mem hlayer, ?_⟩
      exact List.mem_of_getElem? (getElem?_tab_eq.2 ⟨he, rfl⟩)
    have hcount := hle _ hmem
    omega
  obtain ⟨tables, htables, hmaps⟩ := mapM_forall₂ htable
  exact ⟨maxlogcnt, tables, hmax, htables, List.forall₂_map_left_iff.2 hmaps⟩

theorem forall₂_right {α β : Type} {P : β → Prop} {xs : List α} {ys : List β}
    (h : List.Forall₂ (fun _ y => P y) xs ys) : ∀ y ∈ ys, P y := by
  induction h with
  | nil => simp
  | cons hP _ ih =>
    intro y hy
    rcases List.mem_cons.1 hy with rfl | hy
    · exact hP
    · exact ih y hy

/-- The groups and nodes that the layers are balanced with. -/
def balancedWith (hierarchical : Bool) (numGroups : Option Nat) (numNodes : Nat) :
    Option (Nat × Nat) :=
  if hierarchical then numGroups.map fun groups => (groups, numNodes) else some (1, 1)

theorem rebalanceExperts_maps (np : NumPy) {weight : List (List np.Num)}
    {numLog numPhy numNodes numGpus : Nat} {numGroups : Option Nat} {hierarchical : Bool}
    {groups nodes : Nat} (hwith : balancedWith hierarchical numGroups numNodes = some (groups, nodes))
    (h : Divides numLog numPhy groups nodes numGpus) (hpos : 0 < numLog) (hne : weight ≠ [])
    (hrect : ∀ row ∈ weight, row.length = numLog) :
    ∃ phy2log log2phy logcnt,
      rebalanceExperts np numLog numPhy numGroups numNodes numGpus hierarchical weight =
        .ok (phy2log, log2phy, logcnt) ∧
      phy2log.length = weight.length ∧ Maps numLog numPhy phy2log log2phy := by
  obtain ⟨layers, hlayers, hbalanced⟩ := rebalanceLayers_eq np h hpos hrect
  have hlayersNe : layers ≠ [] := by
    intro hnil
    rw [hnil] at hbalanced
    exact hne (List.forall₂_nil_right_iff.1 hbalanced)
  obtain ⟨maxlogcnt, tables, hmax, htables, hmaps⟩ :=
    tables_maps hpos hlayersNe (forall₂_right hbalanced)
  refine ⟨_, tables, layers.map Replication.logcnt, ?_, ?_, hmaps⟩
  · unfold balancedWith at hwith
    unfold rebalanceExperts
    cases hierarchical with
    | false =>
      cases hwith
      show (weight.mapM (rebalanceLayer np numPhy 1 1 numGpus) >>= _) = _
      rw [hlayers, ok_bind]
      dsimp only
      rw [hmax, ok_bind, htables, ok_bind]
    | true =>
      cases numGroups with
      | none => cases hwith
      | some g =>
        cases hwith
        show (weight.mapM (rebalanceLayer np numPhy groups numNodes numGpus) >>= _) = _
        rw [hlayers, ok_bind]
        dsimp only
        rw [hmax, ok_bind, htables, ok_bind]
  · rw [List.length_map, hbalanced.length_eq]

/-- The lists of a layer after its first `n` physical experts. -/
theorem physicalLists_eq {numLog : Nat} {expert : Nat → Nat} (n : Nat)
    (h : ∀ p < n, expert p < numLog) :
    (tab n fun p => ((expert p : Int), p)).foldlM appendPhysical (tab numLog fun _ => []) =
      .ok (tab numLog fun e => (List.range n).filter fun p => expert p = e) := by
  induction n with
  | zero => rfl
  | succ n ih =>
    have hlast : (tab (n + 1) fun p => ((expert p : Int), p)) =
        (tab n fun p => ((expert p : Int), p)) ++ [((expert n : Int), n)] := by
      simp [tab, List.range_succ]
    let lists := fun e => (List.range n).filter fun p => expert p = e
    have hmodify : (tab numLog lists).modify (expert n) (· ++ [n]) =
        tab numLog fun e => (List.range (n + 1)).filter fun p => expert p = e := by
      apply List.ext_getElem?
      intro e
      rw [List.getElem?_modify]
      by_cases he : e < numLog
      · rw [getElem?_tab he, getElem?_tab he, List.range_succ, List.filter_append]
        by_cases heq : expert n = e
        · simp [heq, lists]
        · simp [heq, lists]
      · rw [List.getElem?_eq_none (by simpa using he), List.getElem?_eq_none (by simpa using he)]
        rfl
    rw [hlast, List.foldlM_append, ih fun p hp => h p (by omega), ok_bind, List.foldlM_cons]
    unfold appendPhysical
    rw [length_tab, axisIndex_natCast (h n (by omega))]
    show Except.ok ((tab numLog lists).modify (expert n) (· ++ [n])) = _
    rw [hmodify]

theorem zipIdx_tab {α : Type} (n : Nat) (f : Nat → α) :
    (tab n f).zipIdx = tab n fun p => (f p, p) := by
  apply List.ext_getElem?
  intro p
  rw [List.getElem?_zipIdx]
  by_cases hp : p < n
  · rw [getElem?_tab hp, getElem?_tab hp]
    simp
  · rw [List.getElem?_eq_none (by simpa using hp), List.getElem?_eq_none (by simpa using hp)]
    rfl

/-- A map from physical to logical experts that names every logical expert in each layer. -/
structure Covers (numLog : Nat) (map : Grid Int) : Prop where
  layers : map.rows ≠ []
  experts : ∀ row ∈ map.rows, ∀ x ∈ row, 0 ≤ x ∧ x < numLog
  covered : ∀ row ∈ map.rows, ∀ e < numLog, (e : Int) ∈ row

/-- The lists of a layer, and the row of an expert with any pad. -/
theorem physicalLists_maps {numLog numPhy : Nat} {row : List Int} (hlen : row.length = numPhy)
    (hexperts : ∀ x ∈ row, 0 ≤ x ∧ x < numLog) (hcovered : ∀ e < numLog, (e : Int) ∈ row) :
    ∃ lists, physicalLists numLog row = .ok lists ∧ lists.length = numLog ∧
      ∀ pad : List Nat → Nat, LayerMaps numLog numPhy row (lists.map fun inner =>
        inner.map (fun p : Nat => (p : Int)) ++ List.replicate (pad inner) (-1)) := by
  let expert := fun p => (row.getD p 0).toNat
  have hrow : row = tab numPhy fun p => (expert p : Int) := by
    rw [← hlen]
    conv => lhs; rw [eq_tab row 0]
    apply tab_congr
    intro p hp
    have hmem : row.getD p 0 ∈ row := by
      rw [List.getD, List.getElem?_eq_getElem hp]
      exact List.getElem_mem hp
    have hnonneg := (hexperts _ hmem).1
    simp only [expert]
    omega
  have hlt : ∀ p < numPhy, expert p < numLog := fun p hp => by
    have hmem : (expert p : Int) ∈ row := by
      rw [hrow]
      exact List.mem_of_getElem? (getElem?_tab hp _)
    have hbound := (hexperts _ hmem).2
    omega
  let lists := tab numLog fun e => (List.range numPhy).filter fun p => expert p = e
  refine ⟨lists, ?_, length_tab .., fun pad => ⟨hlen, by simp [lists], ?_⟩⟩
  · unfold physicalLists
    rw [hrow, zipIdx_tab, replicate_eq_tab]
    exact physicalLists_eq numPhy hlt
  · intro e padded hpadded
    rw [List.getElem?_map, Option.map_eq_some_iff] at hpadded
    obtain ⟨inner, hinner, rfl⟩ := hpadded
    obtain ⟨he, rfl⟩ := getElem?_tab_eq.1 hinner
    have hmem : ∀ p, (p ∈ (List.range numPhy).filter fun p => expert p = e) ↔
        row[p]? = some (e : Int) := fun p => by
      rw [hrow, getElem?_tab_eq, Int.natCast_inj]
      simp
    refine ⟨_, _, rfl, ?_, List.nodup_range.filter _, hmem⟩
    obtain ⟨p, hp⟩ := List.mem_iff_getElem?.1 (hcovered e he)
    exact List.ne_nil_of_mem ((hmem p).2 hp)

theorem computeMap_maps {numLog : Nat} {map : Grid Int} (hpos : 0 < numLog)
    (h : Covers numLog map) :
    ∃ rows, computeLogicalToAllPhysicalMap map numLog = .ok rows ∧
      Maps numLog map.cols map.rows rows := by
  obtain ⟨layers, hlayers, hall⟩ := mapM_forall₂ fun row hrow =>
    physicalLists_maps (map.rect row hrow) (h.experts row hrow) (h.covered row hrow)
  have hlists : layers.flatten.map (fun inner => (inner.length : Int)) ≠ [] := by
    intro hnil
    rw [List.map_eq_nil_iff] at hnil
    obtain ⟨row, rest, hrows⟩ := List.exists_cons_of_ne_nil h.layers
    rw [hrows] at hall
    cases hall with
    | cons hfirst _ =>
      have hlen := congrArg List.length hnil
      simp only [List.flatten_cons, List.length_append, List.length_nil, hfirst.1] at hlen
      omega
  obtain ⟨maxLen, hmax, -⟩ := maxOf_spec hlists
  let rows := layers.map fun outer => outer.map fun inner =>
    inner.map (fun p : Nat => (p : Int)) ++ List.replicate (maxLen.toNat - inner.length) (-1)
  refine ⟨rows, ?_, ?_⟩
  · unfold computeLogicalToAllPhysicalMap padNestedArray
    rw [hlayers, ok_bind, hmax, ok_bind]
  · apply List.forall₂_map_right_iff.2
    exact hall.imp fun row lists hrow => hrow.2 fun inner => maxLen.toNat - inner.length

end SglJax.Eplb
