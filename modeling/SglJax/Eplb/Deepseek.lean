import SglJax.Foundation.AxisArrays

/-! The balancer of `eplb_algorithms/deepseek.py`. Every operation there acts on the last
axis, the same for all layers; the functions of the model take the row of one layer. -/
namespace SglJax.Eplb

open Foundation

/-- The floats of numpy. Nothing is assumed of the arithmetic and the order; `argsort`
gives every place once, in some order, and `argmax` a place. -/
structure NumPy where
  Num : Type
  zero : Num
  ofInt : Int → Num
  add : Num → Num → Num
  neg : Num → Num
  div : Num → Num → Num
  lt : Num → Num → Bool
  sum : List Num → Num
  argsort : List Num → List Nat
  argmax : List Num → Nat
  /-- What `np.empty_like` finds in the memory it takes. -/
  uninitialized : Nat → Int
  argsort_perm : ∀ xs, (argsort xs).Perm (List.range xs.length)
  argmax_lt : ∀ xs, xs ≠ [] → argmax xs < xs.length

/-- `assert` -/
def require (holds : Bool) : Except ArrayError Unit :=
  if holds then .ok () else .error .assertion

def floordiv (a b : Nat) : Except ArrayError Nat :=
  if b = 0 then .error .zeroDivision else .ok (a / b)

def divisible (a b : Nat) : Except ArrayError Bool :=
  if b = 0 then .error .zeroDivision else .ok (a % b = 0)

/-- `min` of an iterable with a `key`: the first of the least. -/
def minBy {β : Type} (lt : β → β → Bool) (key : Nat → β) : List Nat → Except ArrayError Nat
  | [] => .error .value
  | i :: rest => .ok (rest.foldl (fun best j => if lt (key j) (key best) then j else best) i)

variable (np : NumPy)

/-- The arrays of `balanced_packing` while the groups of a layer are placed. -/
structure Packing where
  packIndex : List Int
  rankInPack : List Int
  packWeights : List np.Num
  packItems : List Nat

def emptyPacking (numGroups numPacks : Nat) : Packing np where
  packIndex := List.replicate numGroups (-1)
  rankInPack := List.replicate numGroups (-1)
  packWeights := List.replicate numPacks np.zero
  packItems := List.replicate numPacks 0

/-- The body of the loop over `indices[i]`. -/
def placeGroup (numPacks groupsPerPack : Nat) (weight : List np.Num) (s : Packing np)
    (group : Nat) : Except ArrayError (Packing np) := do
  let pack ← minBy np.lt (fun i => s.packWeights.getD i np.zero)
    ((List.range numPacks).filter fun i => s.packItems.getD i 0 < groupsPerPack)
  require (s.packItems.getD pack 0 < groupsPerPack)
  .ok {
    packIndex := s.packIndex.set group pack
    rankInPack := s.rankInPack.set group (s.packItems.getD pack 0)
    packWeights := s.packWeights.set pack
      (np.add (s.packWeights.getD pack np.zero) (weight.getD group np.zero))
    packItems := s.packItems.set pack (s.packItems.getD pack 0 + 1) }

/-- The pack of each group and its rank in it. -/
def balancedPacking (weight : List np.Num) (numPacks : Nat) :
    Except ArrayError (List Int × List Int) := do
  require (← divisible weight.length numPacks)
  let groupsPerPack ← floordiv weight.length numPacks
  if groupsPerPack = 1 then
    .ok (arange weight.length, List.replicate weight.length 0)
  else do
    let packed ← (np.argsort (weight.map np.neg)).foldlM
      (placeGroup np numPacks groupsPerPack weight) (emptyPacking np weight.length numPacks)
    .ok (packed.packIndex, packed.rankInPack)

/-- The logical expert of each physical one and its replica rank, and the number of
replicas of each logical expert. -/
structure Replication where
  phy2log : List Int
  rank : List Int
  logcnt : List Int
deriving DecidableEq, Repr

/-- The body of the loop over the redundant places. -/
def addReplica (weight : List np.Num) (s : Replication) (i : Nat) :
    Except ArrayError Replication :=
  if weight = [] then .error .value
  else
    let redundant := np.argmax (List.zipWith np.div weight (s.logcnt.map np.ofInt))
    .ok {
      phy2log := s.phy2log.set i redundant
      rank := s.rank.set i (s.logcnt.getD redundant 0)
      logcnt := s.logcnt.set redundant (s.logcnt.getD redundant 0 + 1) }

def replicateExperts (weight : List np.Num) (numPhy : Nat) : Except ArrayError Replication := do
  require (weight.length ≤ numPhy)
  (List.range' weight.length (numPhy - weight.length)).foldlM (addReplica np weight) {
    phy2log := arange numPhy
    rank := List.replicate numPhy 0
    logcnt := List.replicate weight.length 1 }

def inverse (perm : List Int) : Except ArrayError (List Int) :=
  putAlongAxis (tab perm.length np.uninitialized) perm (arange perm.length)

/-- The first step: where the experts of each group go when the groups are packed to nodes. -/
def logToMlog (weight : List np.Num) (numGroups groupSize numNodes groupsPerNode : Nat) :
    Except ArrayError (List Int) := do
  let tokensPerGroup := (reshape numGroups groupSize weight).map np.sum
  let packed ← balancedPacking np tokensPerGroup numNodes
  .ok (List.zipWith (fun (pack rank : Int) =>
    (arange groupSize).map fun j => (pack * groupsPerNode + rank) * groupSize + j)
      packed.1 packed.2).flatten

/-- The second and third step on a node: its experts are replicated, and the replicas
packed to its devices. -/
def rebalanceNode (numPhy numPacks phyExpertsPerGpu : Nat) (tokensPerMlog : List np.Num) :
    Except ArrayError Replication := do
  let replicas ← replicateExperts np tokensPerMlog numPhy
  let tokensPerPhy ← takeAlongAxis
    (List.zipWith np.div tokensPerMlog (replicas.logcnt.map np.ofInt)) replicas.phy2log
  let packed ← balancedPacking np tokensPerPhy numPacks
  let phy2pphy := List.zipWith (fun (pack rank : Int) => pack * phyExpertsPerGpu + rank)
    packed.1 packed.2
  let pphy2phy ← inverse np phy2pphy
  let pphy2mlog ← takeAlongAxis replicas.phy2log pphy2phy
  let pphyrank ← takeAlongAxis replicas.rank pphy2phy
  .ok { phy2log := pphy2mlog, rank := pphyrank, logcnt := replicas.logcnt }

/-- A layer of `rebalance_experts_hierarchical`. -/
def rebalanceLayer (numPhysicalExperts numGroups numNodes numGpus : Nat)
    (weight : List np.Num) : Except ArrayError Replication := do
  let numLogicalExperts := weight.length
  require (← divisible numLogicalExperts numGroups)
  let groupSize ← floordiv numLogicalExperts numGroups
  require (← divisible numGroups numNodes)
  let groupsPerNode ← floordiv numGroups numNodes
  require (← divisible numGpus numNodes)
  require (← divisible numPhysicalExperts numGpus)
  let phyExpertsPerGpu ← floordiv numPhysicalExperts numGpus
  let log2mlog ← logToMlog np weight numGroups groupSize numNodes groupsPerNode
  let mlog2log ← inverse np log2mlog
  let tokens ← takeAlongAxis weight mlog2log
  let nodes ← (reshape numNodes (numLogicalExperts / numNodes) tokens).mapM
    (rebalanceNode np (numPhysicalExperts / numNodes) (numGpus / numNodes) phyExpertsPerGpu)
  let pphy2mlog := (List.zipWith (fun (start : Int) (node : Replication) =>
    node.phy2log.map (· + start))
      (tab numNodes fun n => ((n * (numLogicalExperts / numNodes) : Nat) : Int)) nodes).flatten
  let pphy2log ← takeAlongAxis mlog2log pphy2mlog
  let logcnt ← takeAlongAxis (nodes.map Replication.logcnt).flatten log2mlog
  .ok { phy2log := pphy2log, rank := (nodes.map Replication.rank).flatten, logcnt := logcnt }

/-- `max` over an array; without elements it raises. -/
def maxOf : List Int → Except ArrayError Int
  | [] => .error .value
  | x :: xs => .ok (xs.foldl max x)

/-- A layer of `log2phy`: the places of the replicas, written by expert and rank. -/
def logToPhy (numLogicalExperts maxlogcnt : Nat) (layer : Replication) :
    Except ArrayError (List (List Int)) := do
  let flat ← putAlongAxis (List.replicate (numLogicalExperts * maxlogcnt) (-1))
    (List.zipWith (fun expert rank => expert * maxlogcnt + rank) layer.phy2log layer.rank)
    (arange layer.phy2log.length)
  .ok (reshape numLogicalExperts maxlogcnt flat)

/-- `rebalance_experts`: the map of physical to logical experts, that of logical to
physical ones and the counts, for each layer. -/
def rebalanceExperts (numLogicalExperts numReplicas : Nat) (numGroups : Option Nat)
    (numNodes numGpus : Nat) (enableHierarchical : Bool) (weight : List (List np.Num)) :
    Except ArrayError (List (List Int) × List (List (List Int)) × List (List Int)) := do
  let layers ←
    if enableHierarchical then
      match numGroups with
      | some groups => weight.mapM (rebalanceLayer np numReplicas groups numNodes numGpus)
      | none => .error .type
    else weight.mapM (rebalanceLayer np numReplicas 1 1 numGpus)
  let maxlogcnt ← maxOf (layers.map Replication.logcnt).flatten
  let log2phy ← layers.mapM (logToPhy numLogicalExperts maxlogcnt.toNat)
  .ok (layers.map Replication.phy2log, log2phy, layers.map Replication.logcnt)

end SglJax.Eplb
