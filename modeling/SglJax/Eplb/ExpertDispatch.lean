import Mathlib.Data.Rat.Defs
import Mathlib.Algebra.Order.Ring.Rat
import SglJax.Eplb.ExpertPlacement

/-! Dispatch follows the placement: a logical id becomes a physical id that holds the
expert, for all three ways to place the experts. -/
namespace SglJax.Eplb

open Foundation

/-- The metadata of a layer: the row of each expert lists its places. -/
def Located (info : ExpertLocationMetadata) (layer numLog : Nat) : Prop :=
  ∃ map rows, info.physicalToLogicalMap[layer]? = some map ∧
    info.logicalToAllPhysicalMap[layer]? = some rows ∧
    LayerMaps numLog info.numPhysicalExperts map rows

/-- `id` is a place that holds the expert. -/
def Answers (info : ExpertLocationMetadata) (layer e : Nat) (id : Int) : Prop :=
  ∃ p : Nat, id = p ∧ p < info.numPhysicalExperts ∧
    info.physicalToLogicalMap[layer]?.bind (·[p]?) = some (e : Int)

/-- Dispatch in a layer: each id becomes a place that holds the expert. -/
def Dispatched (info : ExpertLocationMetadata) (layer numLog : Nat) : Prop :=
  ∀ topkIds randomOffsets : List Nat, (∀ e ∈ topkIds, e < numLog) →
    randomOffsets.length = topkIds.length →
      ∃ ids, topkIdsLogicalToPhysical randomOffsets topkIds (some info) layer = some ids ∧
        List.Forall₂ (Answers info layer) topkIds ids

/-- What the metadata of `numLayers` layers with `numLog` experts is to be. -/
structure Faithful (info : ExpertLocationMetadata) (numLayers numLog : Nat) : Prop where
  located : ∀ layer < numLayers, Located info layer numLog
  dispatched : ∀ layer < numLayers, Dispatched info layer numLog

namespace ReplicaRow

variable {map row : List Int} {e : Nat}

/-- The entries that are not pads are the places of the expert. -/
theorem entry (h : ReplicaRow map e row) {i : Nat} (hi : i < row.countP (· ≠ -1)) :
    ∃ p : Nat, row[i]? = some (p : Int) ∧ map[p]? = some (e : Int) := by
  obtain ⟨ps, pad, rfl, hne, hnodup, hmem⟩ := h
  have hplaces : (ps.map (fun p : Nat => (p : Int))).countP (· ≠ -1) = ps.length := by
    rw [List.countP_map, List.countP_eq_length]
    intro p hp
    simp only [Function.comp_apply, decide_eq_true_eq]
    omega
  have hpads : (List.replicate pad (-1 : Int)).countP (· ≠ -1) = 0 := by
    rw [List.countP_eq_zero]
    intro x hx
    rw [List.eq_of_mem_replicate hx]
    decide
  rw [List.countP_append, hplaces, hpads] at hi
  refine ⟨ps[i], ?_, (hmem _).1 (List.getElem_mem hi)⟩
  rw [List.getElem?_append_left (by simpa using hi), List.getElem?_map,
    List.getElem?_eq_getElem hi]
  rfl

theorem valid_pos (h : ReplicaRow map e row) : 0 < row.countP (· ≠ -1) := by
  obtain ⟨ps, pad, rfl, hne, hnodup, hmem⟩ := h
  obtain ⟨p, rest, rfl⟩ := List.exists_cons_of_ne_nil hne
  rw [List.countP_pos_iff]
  refine ⟨(p : Int), by simp, ?_⟩
  rw [decide_eq_true_eq]
  omega

/-- The first entry, which the static dispatch takes. -/
theorem first (h : ReplicaRow map e row) :
    ∃ p : Nat, item row 0 = .ok (p : Int) ∧ map[p]? = some (e : Int) := by
  obtain ⟨p, hentry, hp⟩ := h.entry h.valid_pos
  refine ⟨p, ?_, hp⟩
  have hlen : 0 < row.length := (List.getElem?_eq_some_iff.1 hentry).1
  unfold item
  have hindex : axisIndex row.length 0 = .ok 0 := axisIndex_natCast hlen
  rw [hindex, ok_bind, hentry]

end ReplicaRow

theorem clamped_eq {α : Type} {l : List α} {i : Nat} (h : i < l.length) : clamped l i = l[i]? := by
  unfold clamped
  rw [Nat.min_eq_left (by omega)]

theorem clamped_some {α : Type} {l : List α} {i : Nat} {v : α} (h : l[i]? = some v) :
    clamped l i = some v := by
  rw [clamped_eq (List.getElem?_eq_some_iff.1 h).1, h]

/-- Reading one entry for each id. -/
theorem mapM_option_forall₂ {α β γ : Type} {R : α → β → Prop} {f : γ → Option β} (g : γ → α)
    {xs : List γ} (h : ∀ x ∈ xs, ∃ y, f x = some y ∧ R (g x) y) :
    ∃ ys, xs.mapM f = some ys ∧ List.Forall₂ R (xs.map g) ys := by
  induction xs with
  | nil => exact ⟨[], rfl, .nil⟩
  | cons x xs ih =>
    obtain ⟨y, hy, hR⟩ := h x (by simp)
    obtain ⟨ys, hys, hall⟩ := ih fun z hz => h z (by simp [hz])
    refine ⟨y :: ys, ?_, .cons hR hall⟩
    rw [List.mapM_cons, hy, hys]
    rfl

theorem forall₂_left {α β : Type} {R : α → β → Prop} {xs : List α} {ys : List β}
    (h : List.Forall₂ R xs ys) {i : Nat} {x : α} (hi : xs[i]? = some x) :
    ∃ y, ys[i]? = some y ∧ R x y := by
  obtain ⟨hlt, rfl⟩ := List.getElem?_eq_some_iff.1 hi
  have hlt' : i < ys.length := by rwa [← h.length_eq]
  exact ⟨ys[i], List.getElem?_eq_getElem hlt', h.get hlt hlt'⟩

/-- The entry of an expert in the row that the static dispatch reads. -/
def Firsts (rows : List (List Int)) (firsts : List Int) : Prop :=
  List.Forall₂ (fun row first => item row 0 = .ok first) rows firsts

theorem firsts_exists {numLog numPhy : Nat} {map : List Int} {rows : List (List Int)}
    (h : LayerMaps numLog numPhy map rows) :
    ∃ firsts, rows.mapM (fun row => item row 0) = .ok firsts ∧ Firsts rows firsts := by
  apply mapM_forall₂
  intro row hrow
  obtain ⟨e, he⟩ := List.mem_iff_getElem?.1 hrow
  obtain ⟨p, hitem, -⟩ := (h.listed e row he).first
  exact ⟨p, hitem, hitem⟩

section

variable {info : ExpertLocationMetadata} {layer numLog : Nat} {map : List Int}
  {rows : List (List Int)} (hmap : info.physicalToLogicalMap[layer]? = some map)
  (h : LayerMaps numLog info.numPhysicalExperts map rows)

include hmap h in
/-- A place that the map gives to the expert is one that the dispatch may answer. -/
theorem place_ok {e p : Nat} (hp : map[p]? = some (e : Int)) : Answers info layer e p := by
  refine ⟨p, rfl, ?_, ?_⟩
  · rw [← h.places]
    exact (List.getElem?_eq_some_iff.1 hp).1
  · rw [hmap]
    exact hp

include hmap h in
theorem static_dispatched {firsts : List Int} (hfirsts : Firsts rows firsts)
    (hread : info.logicalToRankDispatchPhysicalMap[layer]? = some firsts) {topkIds : List Nat}
    (hids : ∀ e ∈ topkIds, e < numLog) :
    ∃ ids, topkIdsLogicalToPhysicalStatic topkIds info layer = some ids ∧
      List.Forall₂ (Answers info layer) topkIds ids := by
  have hentry : ∀ e ∈ topkIds, ∃ id, clamped firsts e = some id ∧ Answers info layer e id :=
      fun e he => by
    have hlt : e < rows.length := by
      rw [h.experts]
      exact hids e he
    have hrow := List.getElem?_eq_getElem hlt
    obtain ⟨first, hfirst, hitem⟩ := forall₂_left hfirsts hrow
    obtain ⟨p, hp, hplace⟩ := (h.listed e _ hrow).first
    rw [hp] at hitem
    cases hitem
    exact ⟨p, clamped_some hfirst, place_ok hmap h hplace⟩
  obtain ⟨ids, hrun, hall⟩ := mapM_option_forall₂ (fun e : Nat => e) hentry
  rw [List.map_id'] at hall
  refine ⟨ids, ?_, hall⟩
  unfold topkIdsLogicalToPhysicalStatic
  rw [clamped_some hread]
  exact hrun

include hmap h in
theorem dynamic_dispatched
    (hvalid : info.logicalToAllPhysicalMapNumValid[layer]? =
      some (rows.map fun row => row.countP (· ≠ -1)))
    (hread : info.logicalToAllPhysicalMap[layer]? = some rows) {topkIds randomOffsets : List Nat}
    (hids : ∀ e ∈ topkIds, e < numLog) (hlen : randomOffsets.length = topkIds.length) :
    ∃ ids, topkIdsLogicalToPhysicalDynamic randomOffsets topkIds info layer = some ids ∧
      List.Forall₂ (Answers info layer) topkIds ids := by
  have hentry : ∀ draw ∈ topkIds.zip randomOffsets, ∃ id,
      chosenReplica (rows.map fun row => row.countP (· ≠ -1)) rows draw = some id ∧
        Answers info layer draw.1 id := fun draw hdraw => by
    have hlt : draw.1 < rows.length := by
      rw [h.experts]
      exact hids _ (List.of_mem_zip hdraw).1
    have hrow := List.getElem?_eq_getElem hlt
    have hlisted := h.listed draw.1 _ hrow
    have hcount : (rows.map fun row => row.countP (· ≠ -1))[draw.1]? =
        some (rows[draw.1].countP (· ≠ -1)) := by
      rw [List.getElem?_map, hrow]
      rfl
    obtain ⟨p, hp, hplace⟩ := hlisted.entry (Nat.mod_lt draw.2 hlisted.valid_pos)
    refine ⟨p, ?_, place_ok hmap h hplace⟩
    unfold chosenReplica
    rw [clamped_some hcount, clamped_some hrow]
    show some (rows[draw.1].getD (draw.2 % rows[draw.1].countP (· ≠ -1)) fillValue) = some (p : Int)
    rw [List.getD, hp]
    rfl
  obtain ⟨ids, hrun, hall⟩ := mapM_option_forall₂ (fun draw : Nat × Nat => draw.1) hentry
  have hzip : (topkIds.zip randomOffsets).map (fun draw => draw.1) = topkIds :=
    List.map_fst_zip (by omega)
  rw [hzip] at hall
  refine ⟨ids, ?_, hall⟩
  unfold topkIdsLogicalToPhysicalDynamic
  rw [clamped_some hvalid, clamped_some hread]
  exact hrun

end

/-- Maps that agree give faithful metadata. -/
theorem initRaw_faithful (args : ServerArgs) {numLog numPhy : Nat} {map : List (List Int)}
    {rows : List (List (List Int))} (h : Maps numLog numPhy map rows) :
    ∃ info, initRaw args map numPhy rows = .ok info ∧ info.physicalToLogicalMap = map ∧
      Faithful info map.length numLog := by
  have hlayer : ∀ layer ∈ rows, ∃ firsts, layer.mapM (fun row => item row 0) = .ok firsts ∧
      Firsts layer firsts := fun layer hmem => by
    have hmaps : List.Forall₂ (fun _ layer => ∃ map, LayerMaps numLog numPhy map layer) map rows :=
      h.imp fun map layer hlayer => ⟨map, hlayer⟩
    obtain ⟨map', hmap'⟩ := forall₂_right hmaps layer hmem
    exact firsts_exists hmap'
  obtain ⟨dispatch, hdispatch, hfirsts⟩ := mapM_forall₂ hlayer
  let info : ExpertLocationMetadata := {
    epDispatchAlgorithm := args.epDispatchAlgorithm.getD .static
    logicalToRankDispatchPhysicalMap := dispatch
    logicalToAllPhysicalMap := rows
    logicalToAllPhysicalMapNumValid :=
      rows.map fun layer => layer.map fun row => row.countP (· ≠ -1)
    physicalToLogicalMap := map
    numPhysicalExperts := numPhy }
  have hread : ∀ layer < map.length, ∃ map' rows' firsts, map[layer]? = some map' ∧
      rows[layer]? = some rows' ∧ dispatch[layer]? = some firsts ∧
      LayerMaps numLog numPhy map' rows' ∧ Firsts rows' firsts := fun layer hlt => by
    have hmap := List.getElem?_eq_getElem hlt
    obtain ⟨rows', hrows', hmaps⟩ := forall₂_left h hmap
    obtain ⟨firsts, hfirst, hall⟩ := forall₂_left hfirsts hrows'
    exact ⟨_, rows', firsts, hmap, hrows', hfirst, hmaps, hall⟩
  refine ⟨info, ?_, rfl, ⟨fun layer hlt => ?_, fun layer hlt => ?_⟩⟩
  · unfold initRaw
    rw [hdispatch, ok_bind]
  · obtain ⟨map', rows', -, hmap, hrows, -, hmaps, -⟩ := hread layer hlt
    exact ⟨map', rows', hmap, hrows, hmaps⟩
  · obtain ⟨map', rows', firsts, hmap, hrows, hfirst, hmaps, hall⟩ := hread layer hlt
    intro topkIds randomOffsets hids hlen
    have hvalid : info.logicalToAllPhysicalMapNumValid[layer]? =
        some (rows'.map fun row => row.countP (· ≠ -1)) := by
      show (rows.map fun layer => layer.map fun row => row.countP (· ≠ -1))[layer]? = _
      rw [List.getElem?_map, hrows]
      rfl
    have hstatic : ∃ ids, topkIdsLogicalToPhysicalStatic topkIds info layer = some ids ∧
        List.Forall₂ (Answers info layer) topkIds ids :=
      static_dispatched hmap hmaps hall hfirst hids
    have hdynamic : ∃ ids,
        topkIdsLogicalToPhysicalDynamic randomOffsets topkIds info layer = some ids ∧
        List.Forall₂ (Answers info layer) topkIds ids :=
      dynamic_dispatched hmap hmaps hvalid hrows hids hlen
    unfold topkIdsLogicalToPhysical
    dsimp only
    split
    · exact hstatic
    · exact hdynamic
    · exact hdynamic

/-- The number of devices that `init_by_eplb` balances for. -/
def numGpus (args : ServerArgs) (config : LocationConfig) : Nat :=
  numPhysicalExperts args config / (numPhysicalExperts args config / args.epSize)

/-- The sizes for which no check of `init_by_eplb` fails: the algorithm that is chosen, the
groups and nodes it balances with, and what must divide what. -/
structure EplbSizes (args : ServerArgs) (config : LocationConfig) (algorithm : EplbAlgorithm)
    (groups nodes : Nat) : Prop where
  chosen : computeAlgorithm args.eplbAlgorithm config.numGroups args.nnodes = .ok algorithm
  balanced : balancedWith (algorithm = .deepseekHierarchical) config.numGroups args.nnodes =
    some (groups, nodes)
  ep : 0 < args.epSize
  local_pos : 0 < numPhysicalExperts args config / args.epSize
  experts : config.numExperts % groups = 0
  group : groups % nodes = 0
  gpu : numGpus args config % nodes = 0
  places : numPhysicalExperts args config % numGpus args config = 0

theorem EplbSizes.divides {args : ServerArgs} {config : LocationConfig}
    {algorithm : EplbAlgorithm} {groups nodes : Nat}
    (h : EplbSizes args config algorithm groups nodes) (hpos : 0 < config.numExperts) :
    Divides config.numExperts (numPhysicalExperts args config) groups nodes
      (numGpus args config) := by
  have hgroups : 0 < groups := by
    apply Nat.pos_of_ne_zero
    intro hzero
    have hdvd := h.experts
    rw [hzero, Nat.mod_zero] at hdvd
    omega
  have hnodes : 0 < nodes := by
    apply Nat.pos_of_ne_zero
    intro hzero
    have hdvd := h.group
    rw [hzero, Nat.mod_zero] at hdvd
    omega
  refine ⟨Nat.le_add_right .., hgroups, h.experts, hnodes, h.group, ?_, h.gpu, h.places⟩
  exact Nat.div_pos (Nat.div_le_self ..) h.local_pos

theorem isEmpty_eq_false {config : LocationConfig} (hexperts : 1 ≤ config.numExperts)
    (hlayers : 1 ≤ config.numLayers) : config.isEmpty = false := by
  unfold LocationConfig.isEmpty
  rw [decide_eq_false (by omega), decide_eq_false (by omega)]
  rfl

theorem initByMapping_faithful (args : ServerArgs) {config : LocationConfig}
    (hempty : config.isEmpty = false) (hpos : 0 < config.numExperts) {map : Grid Int}
    (h : Covers config.numExperts map) :
    ∃ info, initByMapping args config map = .ok (some info) ∧
      info.physicalToLogicalMap = map.rows ∧
      Faithful info map.rows.length config.numExperts := by
  obtain ⟨rows, hrows, hmaps⟩ := computeMap_maps hpos h
  obtain ⟨info, hinfo, hmap, hfaithful⟩ := initRaw_faithful args hmaps
  refine ⟨info, ?_, hmap, hfaithful⟩
  unfold initByMapping
  rw [if_neg (by rw [hempty]; exact Bool.false_ne_true), hrows, ok_bind, hinfo, ok_bind]

/-- The experts in turn name every logical expert. -/
theorem trivialMap_covers {numLayers numLog numPhy : Nat} (hlayers : 0 < numLayers)
    (hpos : 0 < numLog) (hle : numLog ≤ numPhy) :
    Covers numLog (trivialMap numLayers numLog numPhy) := by
  constructor
  · intro hnil
    have hlen := congrArg List.length hnil
    rw [trivialMap, List.length_replicate, List.length_nil] at hlen
    omega
  · intro row hrow x hx
    rw [List.eq_of_mem_replicate hrow] at hx
    obtain ⟨p, hp⟩ := List.mem_iff_getElem?.1 hx
    obtain ⟨-, rfl⟩ := getElem?_tab_eq.1 hp
    have hmod := Nat.mod_lt p hpos
    omega
  · intro row hrow e he
    rw [List.eq_of_mem_replicate hrow]
    apply List.mem_of_getElem? (i := e)
    rw [getElem?_tab (by omega), Nat.mod_eq_of_lt he]

theorem initByEplb_faithful (np : NumPy) {args : ServerArgs} {config : LocationConfig}
    (hempty : config.isEmpty = false) (hpos : 0 < config.numExperts) {load : Grid np.Num}
    (hcols : load.cols = config.numExperts) (hrows : load.rows ≠ []) {algorithm : EplbAlgorithm}
    {groups nodes : Nat} (h : EplbSizes args config algorithm groups nodes) :
    ∃ info, initByEplb np args config load = .ok (some info) ∧
      Faithful info load.rows.length config.numExperts := by
  obtain ⟨phy2log, log2phy, logcnt, heq, hlen, hmaps⟩ :=
    rebalanceExperts_maps np h.balanced (h.divides hpos) hpos hrows
      (fun row hrow => (load.rect row hrow).trans hcols)
  obtain ⟨info, hinfo, -, hfaithful⟩ := initRaw_faithful args hmaps
  rw [hlen] at hfaithful
  refine ⟨info, ?_, hfaithful⟩
  have hgpus := floordiv_eq (a := numPhysicalExperts args config) h.local_pos
  unfold initByEplb
  dsimp only
  rw [if_neg (by rw [hempty]; exact Bool.false_ne_true), floordiv_eq h.ep, ok_bind, h.chosen, ok_bind,
    hgpus, ok_bind, hcols]
  unfold numGpus at heq
  rw [heq, ok_bind]
  dsimp only
  rw [hinfo, ok_bind]

theorem topkIdsLogicalToPhysical_faithful (np : NumPy) (args : ServerArgs)
    (config : LocationConfig) (hexperts : 1 ≤ config.numExperts) (hlayers : 1 ≤ config.numLayers) :
    (∀ load : Grid np.Num, load.cols = config.numExperts → load.rows ≠ [] →
      ∀ algorithm groups nodes, EplbSizes args config algorithm groups nodes →
        ∃ info, initByEplb np args config load = .ok (some info) ∧
          Faithful info load.rows.length config.numExperts) ∧
    (∃ info, initTrivial args config = .ok (some info) ∧
      Faithful info config.numLayers config.numExperts) ∧
    ∀ map, Covers config.numExperts map →
      ∃ info, initByMapping args config map = .ok (some info) ∧
        info.physicalToLogicalMap = map.rows ∧
        Faithful info map.rows.length config.numExperts := by
  have hempty := isEmpty_eq_false hexperts hlayers
  refine ⟨fun load hcols hrows algorithm groups nodes h => ?_, ?_, fun map h => ?_⟩
  · exact initByEplb_faithful np hempty hexperts hcols hrows h
  · have hcovers : Covers config.numExperts (trivialMap config.numLayers config.numExperts
        (numPhysicalExperts args config)) :=
      trivialMap_covers hlayers hexperts (Nat.le_add_right ..)
    obtain ⟨info, hinfo, -, hfaithful⟩ := initByMapping_faithful args hempty hexperts hcovers
    have hlen : (trivialMap config.numLayers config.numExperts
        (numPhysicalExperts args config)).rows.length = config.numLayers :=
      List.length_replicate ..
    rw [hlen] at hfaithful
    refine ⟨info, ?_, hfaithful⟩
    unfold initTrivial
    rw [if_neg (by rw [hempty]; exact Bool.false_ne_true), hinfo]
  · exact initByMapping_faithful args hempty hexperts h

/-- The place of the first greatest. -/
def firstGreatest (xs : List ℚ) : Nat :=
  (List.range xs.length).foldl
    (fun best j => if xs.getD best 0 < xs.getD j 0 then j else best) 0

theorem firstGreatest_lt {xs : List ℚ} (h : xs ≠ []) : firstGreatest xs < xs.length := by
  have hfold : ∀ (js : List Nat) (best : Nat), best < xs.length → (∀ j ∈ js, j < xs.length) →
      js.foldl (fun best j => if xs.getD best 0 < xs.getD j 0 then j else best) best <
        xs.length := by
    intro js
    induction js with
    | nil => exact fun best hbest _ => hbest
    | cons j js ih =>
      intro best hbest hjs
      rw [List.foldl_cons]
      apply ih
      · split
        · exact hjs j (by simp)
        · exact hbest
      · exact fun k hk => hjs k (by simp [hk])
  exact hfold _ 0 (List.length_pos_of_ne_nil h) fun j hj => List.mem_range.1 hj

/-- Exact numbers in the place of the floats. -/
def exactNumPy : NumPy where
  Num := ℚ
  zero := 0
  ofInt := fun i => i
  add := (· + ·)
  neg := (- ·)
  div := (· / ·)
  lt a b := a < b
  sum := List.foldr (· + ·) 0
  argsort xs := (List.range xs.length).mergeSort fun i j => xs.getD i 0 ≤ xs.getD j 0
  argmax := firstGreatest
  uninitialized _ := 0
  argsort_perm _ := List.mergeSort_perm ..
  argmax_lt _ := firstGreatest_lt

def unevenLoads : Grid ℚ where
  cols := 4
  rows := [[1, 9, 3, 4], [0, 0, 5, 5]]
  rect := by decide

/-- Four experts of two layers on two nodes with two devices each, two places a device. -/
theorem topkIdsLogicalToPhysical_faithful_twoNodes :
    (∃ info, initByEplb exactNumPy
      { epSize := 4, epNumRedundantExperts := 4, nnodes := 2, epDispatchAlgorithm := some .dynamic,
        eplbAlgorithm := .auto }
      { numExperts := 4, numLayers := 2, numGroups := some 2 }
      unevenLoads = .ok (some info) ∧ Faithful info 2 4) ∧
    ∃ info, initByMapping
      { epSize := 1, epNumRedundantExperts := 1, nnodes := 1, epDispatchAlgorithm := none,
        eplbAlgorithm := .auto }
      { numExperts := 2, numLayers := 1, numGroups := none }
      { cols := 3, rows := [[1, 0, 1]], rect := by decide } = .ok (some info) ∧
        info.physicalToLogicalMap = [[1, 0, 1]] ∧ Faithful info 1 2 := by
  constructor
  · exact (topkIdsLogicalToPhysical_faithful exactNumPy _ _ (by decide) (by decide)).1 unevenLoads
      rfl (List.cons_ne_nil _ _) .deepseekHierarchical 2 2
      ⟨rfl, rfl, by decide, by decide, by decide, by decide, by decide, by decide⟩
  · exact (topkIdsLogicalToPhysical_faithful exactNumPy _ _ (by decide) (by decide)).2.2 _
      ⟨by simp, by decide, by decide⟩

end SglJax.Eplb
