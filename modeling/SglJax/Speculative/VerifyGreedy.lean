import SglJax.Foundation.ParentTree
import SglJax.Speculative.VerifyTree
import Mathlib.Data.List.Perm.Subperm

/-! What greedy verification gives: the length of the longest path that agrees with greedy
decoding, and its tokens when the accepted nodes are the first ones of the tree. -/
namespace SglJax.Speculative

/-! ### Greedy decoding -/

/-- The next `count` tokens after `context`, one at a time. -/
def greedy (target : List Nat → Nat) (context : List Nat) : Nat → List Nat
  | 0 => []
  | count + 1 => target context :: greedy target (context ++ [target context]) count

theorem length_greedy (target : List Nat → Nat) (context : List Nat) (count : Nat) :
    (greedy target context count).length = count := by
  induction count generalizing context with
  | zero => rfl
  | succ count ih => rw [greedy, List.length_cons, ih]

theorem greedy_succ (target : List Nat → Nat) (context : List Nat) (count : Nat) :
    greedy target context (count + 1) =
      greedy target context count ++ [target (context ++ greedy target context count)] := by
  induction count generalizing context with
  | zero => simp [greedy]
  | succ count ih =>
    rw [greedy, ih, greedy, List.cons_append, List.append_assoc, List.singleton_append]

theorem getElem?_greedy {target : List Nat → Nat} {context : List Nat} {count k : Nat}
    (h : k < count) :
    (greedy target context count)[k]? = some (target (context ++ greedy target context k)) := by
  induction count with
  | zero => omega
  | succ count ih =>
    have hlength := length_greedy target context count
    rw [greedy_succ]
    rcases Nat.lt_succ_iff_lt_or_eq.mp h with hlt | rfl
    · rw [List.getElem?_append_left (by omega)]
      exact ih hlt
    · rw [List.getElem?_append_right (by omega), hlength, Nat.sub_self, List.getElem?_cons_zero]

/-! ### Batches of trees -/

/-- The verify input of a batch, with the tree that the links of each request encode. -/
structure TreeBatch where
  input : VerifyInput
  tree : Nat → ParentTree
  nonempty : 0 < input.draftTokenNum
  within : ∀ b < input.bs, ∀ t p, (tree b).parent t = some p → t < input.draftTokenNum
  parent : ∀ b < input.bs, ∀ t < input.draftTokenNum, 0 < t → ((tree b).parent t).isSome
  index : ∀ b < input.bs, ∀ t < input.draftTokenNum,
    (input.retrive b).index t = some (b * input.draftTokenNum + t)
  children : ∀ b < input.bs, ∀ p < input.draftTokenNum, ∃ nodes,
    Linked (input.retrive b).nextSibling ((input.retrive b).nextToken p) nodes ∧ nodes.Nodup ∧
      ∀ t, t ∈ nodes ↔ (tree b).parent t = some p
  depth : ∀ b < input.bs, ∀ t < input.draftTokenNum, (tree b).depth t ≤ input.specSteps
  /-- Siblings have different tokens. -/
  distinct : ∀ b < input.bs, ∀ t t' p, (tree b).parent t = some p → (tree b).parent t' = some p →
    input.draftToken (b * input.draftTokenNum + t) =
      input.draftToken (b * input.draftTokenNum + t') → t = t'

namespace TreeBatch

variable (batch : TreeBatch) (target : Nat → List Nat → Nat)

def token (b t : Nat) : Nat := batch.input.draftToken (b * batch.input.draftTokenNum + t)

/-- The tokens from the verified one to a node. -/
def pathTokens (b t : Nat) : List Nat := ((batch.tree b).path t).map (batch.token b)

/-- `jnp.argmax` of the target's logits: the token after the path to each node. -/
def targetPredict (idx : Nat) : Nat :=
  target (idx / batch.input.draftTokenNum)
    (batch.pathTokens (idx / batch.input.draftTokenNum) (idx % batch.input.draftTokenNum))

/-- The path to a node is what greedy decoding continues the verified token with. -/
def Agrees (b t : Nat) : Prop :=
  batch.pathTokens b t =
    batch.token b 0 :: greedy (target b) [batch.token b 0] ((batch.tree b).depth t)

/-- One more than the length of the longest path that agrees. -/
structure IsAcceptLength (b a : Nat) : Prop where
  reached : ∃ t < batch.input.draftTokenNum, batch.Agrees target b t ∧ (batch.tree b).depth t + 1 = a
  longest : ∀ t < batch.input.draftTokenNum, batch.Agrees target b t → (batch.tree b).depth t + 1 ≤ a

variable {batch target} {b t p : Nat}

theorem root_parent (batch : TreeBatch) (b : Nat) : (batch.tree b).parent 0 = none := by
  cases h : (batch.tree b).parent 0 with
  | none => rfl
  | some p => exact absurd ((batch.tree b).parent_lt h) (Nat.not_lt_zero p)

theorem targetPredict_apply (ht : t < batch.input.draftTokenNum) :
    batch.targetPredict target (b * batch.input.draftTokenNum + t) =
      target b (batch.pathTokens b t) := by
  have hn := batch.nonempty
  have hdiv : (b * batch.input.draftTokenNum + t) / batch.input.draftTokenNum = b := by
    rw [Nat.add_comm, Nat.add_mul_div_right _ _ hn, Nat.div_eq_of_lt ht, Nat.zero_add]
  have hmod : (b * batch.input.draftTokenNum + t) % batch.input.draftTokenNum = t := by
    rw [Nat.add_comm, Nat.add_mul_mod_self_right, Nat.mod_eq_of_lt ht]
  unfold targetPredict
  rw [hdiv, hmod]

theorem agrees_root (batch : TreeBatch) (target : Nat → List Nat → Nat) (b : Nat) :
    batch.Agrees target b 0 := by
  unfold Agrees pathTokens
  rw [ParentTree.path_of_none (batch.root_parent b),
    ParentTree.depth_of_none (batch.root_parent b)]
  rfl

/-- A child agrees when its parent does and the target says its token there. -/
theorem agrees_child_iff (h : (batch.tree b).parent t = some p) :
    batch.Agrees target b t ↔
      batch.Agrees target b p ∧ batch.token b t = target b (batch.pathTokens b p) := by
  have hpath : batch.pathTokens b t = batch.pathTokens b p ++ [batch.token b t] := by
    unfold pathTokens
    rw [ParentTree.path_of_some h, List.map_append]
    rfl
  unfold Agrees
  rw [hpath, ParentTree.depth_of_some h, greedy_succ, ← List.cons_append, List.singleton_append]
  constructor
  · intro heq
    obtain ⟨hinit, hlast⟩ := List.append_inj' heq rfl
    refine ⟨hinit, ?_⟩
    rw [hinit]
    exact List.singleton_inj.mp hlast
  · rintro ⟨hinit, hlast⟩
    rw [hlast, hinit]

theorem Agrees.above {u : Nat} (h : batch.Agrees target b t) (hu : (batch.tree b).Above u t) :
    batch.Agrees target b u := by
  induction hu with
  | refl => exact h
  | tail _ hparent ih => exact ((agrees_child_iff hparent).mp ih).1

/-- Two nodes of one depth that agree are the same. -/
theorem Agrees.unique {t' : Nat} (hb : b < batch.input.bs) (ht : t < batch.input.draftTokenNum)
    (ht' : t' < batch.input.draftTokenNum) (h : batch.Agrees target b t)
    (h' : batch.Agrees target b t') (hdepth : (batch.tree b).depth t = (batch.tree b).depth t') :
    t = t' := by
  induction t using Nat.strongRecOn generalizing t' with
  | ind t ih =>
    have hroot : ∀ u < batch.input.draftTokenNum, (batch.tree b).parent u = none → u = 0 := by
      intro u hu hnone
      by_contra hne
      have hsome := batch.parent b hb u hu (Nat.pos_of_ne_zero hne)
      rw [hnone] at hsome
      cases hsome
    cases hp : (batch.tree b).parent t with
    | none =>
      cases hp' : (batch.tree b).parent t' with
      | none => rw [hroot t ht hp, hroot t' ht' hp']
      | some p' =>
        rw [ParentTree.depth_of_none hp, ParentTree.depth_of_some hp'] at hdepth
        omega
    | some p =>
      cases hp' : (batch.tree b).parent t' with
      | none =>
        rw [ParentTree.depth_of_some hp, ParentTree.depth_of_none hp'] at hdepth
        omega
      | some p' =>
        obtain ⟨hagrees, htoken⟩ := (agrees_child_iff hp).mp h
        obtain ⟨hagrees', htoken'⟩ := (agrees_child_iff hp').mp h'
        rw [ParentTree.depth_of_some hp, ParentTree.depth_of_some hp'] at hdepth
        have hlt := (batch.tree b).parent_lt hp
        have hlt' := (batch.tree b).parent_lt hp'
        have hsame : p = p' :=
          ih p hlt (by omega) (by omega) hagrees hagrees' (Nat.succ.inj hdepth)
        subst hsame
        exact batch.distinct b hb t t' p hp hp' (htoken.trans htoken'.symm)

/-- The longest path that agrees ends where no child agrees. -/
theorem Agrees.isAcceptLength (hb : b < batch.input.bs) (ht : t < batch.input.draftTokenNum)
    (h : batch.Agrees target b t)
    (hend : ∀ u, (batch.tree b).parent u = some t → ¬ batch.Agrees target b u) :
    batch.IsAcceptLength target b ((batch.tree b).depth t + 1) := by
  refine ⟨⟨t, ht, h, rfl⟩, fun u hu hagrees => ?_⟩
  by_contra hlong
  obtain ⟨v, hv, hdepth⟩ := (batch.tree b).exists_above
    (show (batch.tree b).depth t + 1 ≤ (batch.tree b).depth u by omega)
  have hagreesv := hagrees.above hv
  have hvlt := Nat.lt_of_le_of_lt hv.le hu
  cases hp : (batch.tree b).parent v with
  | none =>
    rw [ParentTree.depth_of_none hp] at hdepth
    omega
  | some p =>
    rw [ParentTree.depth_of_some hp] at hdepth
    have hplt := (batch.tree b).parent_lt hp
    have hsame : p = t := ((agrees_child_iff hp).mp hagreesv).1.unique hb (by omega) ht h
      (Nat.succ.inj hdepth)
    exact hend v (hsame ▸ hp) hagreesv

/-! ### The kernel -/

variable {fuel : Nat}

theorem walkSiblings_eq (tok : Nat) {first : Option Nat} {nodes : List Nat}
    (h : Linked (batch.input.retrive b).nextSibling first nodes) (hfuel : nodes.length ≤ fuel) :
    batch.input.walkSiblings b tok fuel first =
      some (nodes.find? fun t => batch.token b t == tok) := by
  induction h generalizing fuel with
  | nil =>
    unfold VerifyInput.walkSiblings
    rfl
  | cons hrest ih =>
    rename_i u rest
    cases fuel with
    | zero => exact absurd hfuel (Nat.not_succ_le_zero _)
    | succ fuel =>
      have hhere : batch.input.draftToken (b * batch.input.draftTokenNum + u) = batch.token b u := rfl
      unfold VerifyInput.walkSiblings
      rw [hhere]
      by_cases htoken : batch.token b u = tok
      · rw [if_pos htoken, List.find?_cons_of_pos (by simpa using htoken)]
      · rw [if_neg htoken, List.find?_cons_of_neg (by simpa using htoken)]
        exact ih (Nat.le_of_succ_le_succ hfuel)

theorem retriveIndex_eq (hb : b < batch.input.bs) (ht : t < batch.input.draftTokenNum) :
    batch.input.retriveIndex b t = b * batch.input.draftTokenNum + t := by
  unfold VerifyInput.retriveIndex
  rw [batch.index b hb t ht, Option.getD_some]

/-- The state of the loop at an accepted node: the tokens at the nodes above it are
written. -/
structure Reached (batch : TreeBatch) (target : Nat → List Nat → Nat) (b node : Nat)
    (start : Nat → Nat) (s : VerifyState) : Prop where
  lt : node < batch.input.draftTokenNum
  agrees : batch.Agrees target b node
  cur : s.curIndex = node
  last : s.lastAcceptedRetriveIdx = b * batch.input.draftTokenNum + node
  count : s.numAcceptedTokens = (batch.tree b).depth node
  written : ∀ u, (batch.tree b).Above u node → u ≠ node →
    s.predicts (b * batch.input.draftTokenNum + u) = target b (batch.pathTokens b u)
  kept : ∀ idx, (∀ u, (batch.tree b).Above u node → u ≠ node →
    idx ≠ b * batch.input.draftTokenNum + u) → s.predicts idx = start idx

theorem Reached.accept {node child : Nat} {start : Nat → Nat} {s : VerifyState}
    (hb : b < batch.input.bs) (h : Reached batch target b node start s)
    (hchild : (batch.tree b).parent child = some node)
    (htoken : batch.token b child = target b (batch.pathTokens b node)) :
    Reached batch target b child start
      (batch.input.accept (batch.targetPredict target) b child s) := by
  have hlt := batch.within b hb child node hchild
  have hwrite : (batch.input.accept (batch.targetPredict target) b child s).predicts =
      Function.update s.predicts (b * batch.input.draftTokenNum + node)
        (target b (batch.pathTokens b node)) := by
    unfold VerifyInput.accept
    dsimp only
    rw [h.last, targetPredict_apply h.lt]
  have habove : ∀ u, (batch.tree b).Above u child ∧ u ≠ child ↔ (batch.tree b).Above u node := by
    intro u
    rw [ParentTree.above_of_some hchild]
    constructor
    · rintro ⟨rfl | hu, hne⟩
      · exact absurd rfl hne
      · exact hu
    · intro hu
      have hle := hu.le
      have hparent := (batch.tree b).parent_lt hchild
      exact ⟨.inr hu, by omega⟩
  constructor
  · exact hlt
  · exact (agrees_child_iff hchild).mpr ⟨h.agrees, htoken⟩
  · rfl
  · exact retriveIndex_eq hb hlt
  · unfold VerifyInput.accept
    dsimp only
    rw [h.count, ParentTree.depth_of_some hchild]
  · intro u hu hne
    rw [hwrite]
    by_cases heq : u = node
    · rw [heq, Function.update_self]
    · rw [Function.update_of_ne (by omega)]
      exact h.written u ((habove u).mp ⟨hu, hne⟩) heq
  · intro idx hidx
    have hnode := (habove node).mpr (ParentTree.Above.refl _ _)
    rw [hwrite, Function.update_of_ne (hidx node hnode.1 hnode.2)]
    apply h.kept
    intro u hu hne
    have huchild := (habove u).mpr hu
    exact hidx u huchild.1 huchild.2

/-- The list of a node's children is no longer than the tree. -/
theorem length_children_le {nodes : List Nat} (hb : b < batch.input.bs) (hnodup : nodes.Nodup)
    (hmem : ∀ t, t ∈ nodes ↔ (batch.tree b).parent t = some p) :
    nodes.length ≤ batch.input.draftTokenNum := by
  have hsub : nodes ⊆ List.range batch.input.draftTokenNum := by
    intro t ht
    exact List.mem_range.mpr (batch.within b hb t p ((hmem t).mp ht))
  have hle := (List.subperm_of_subset hnodup hsub).length_le
  rwa [List.length_range] at hle

/-- The loop ends at a node none of whose children agrees. -/
theorem Reached.verifyLoop {rounds node : Nat} {start : Nat → Nat} {s : VerifyState}
    (hb : b < batch.input.bs) (hfuel : batch.input.draftTokenNum ≤ fuel)
    (h : Reached batch target b node start s)
    (hrounds : (batch.tree b).depth node + rounds = batch.input.specSteps) :
    ∃ s' node', batch.input.verifyLoop (batch.targetPredict target) b fuel rounds s = some s' ∧
      Reached batch target b node' start s' ∧
      ∀ t, (batch.tree b).parent t = some node' → ¬ batch.Agrees target b t := by
  induction rounds generalizing node s with
  | zero =>
    refine ⟨s, node, rfl, h, fun t ht => ?_⟩
    have hdepth := batch.depth b hb t (batch.within b hb t node ht)
    rw [ParentTree.depth_of_some ht] at hdepth
    omega
  | succ rounds ih =>
    obtain ⟨nodes, hlinked, hnodup, hmem⟩ := batch.children b hb node h.lt
    have hwalk := walkSiblings_eq (target b (batch.pathTokens b node)) hlinked
      ((length_children_le hb hnodup hmem).trans hfuel)
    unfold VerifyInput.verifyLoop
    rw [h.last, h.cur, targetPredict_apply h.lt, hwalk]
    cases hfind : nodes.find? fun t => batch.token b t == target b (batch.pathTokens b node) with
    | none =>
      refine ⟨s, node, rfl, h, fun t ht hagrees => ?_⟩
      have hno := List.find?_eq_none.mp hfind t ((hmem t).mpr ht)
      exact hno (by simpa using ((agrees_child_iff ht).mp hagrees).2)
    | some child =>
      have hchild := (hmem child).mp (List.mem_of_find?_eq_some hfind)
      have htoken : batch.token b child = target b (batch.pathTokens b node) := by
        simpa using List.find?_some hfind
      refine ih (h.accept hb hchild htoken) ?_
      rw [ParentTree.depth_of_some hchild]
      omega

theorem reached_initState (target : Nat → List Nat → Nat) (hb : b < batch.input.bs)
    (out : VerifyOutput) :
    Reached batch target b 0 out.predicts (batch.input.initState b out) where
  lt := batch.nonempty
  agrees := agrees_root batch target b
  cur := rfl
  last := retriveIndex_eq hb batch.nonempty
  count := (ParentTree.depth_of_none (batch.root_parent b)).symm
  written := by
    intro u hu hne
    exact absurd ((ParentTree.above_of_none (batch.root_parent b)).mp hu) hne
  kept := fun _ _ => rfl

/-- The outputs for a request whose longest path that agrees ends at `node`. -/
structure Accepted (batch : TreeBatch) (target : Nat → List Nat → Nat) (b node : Nat)
    (start : Nat → Nat) (out : VerifyOutput) : Prop where
  lt : node < batch.input.draftTokenNum
  agrees : batch.Agrees target b node
  ends : ∀ t, (batch.tree b).parent t = some node → ¬ batch.Agrees target b t
  count : out.acceptTokenNum b = (batch.tree b).depth node
  written : ∀ u, (batch.tree b).Above u node →
    out.predicts (b * batch.input.draftTokenNum + u) = target b (batch.pathTokens b u)
  kept : ∀ u < batch.input.draftTokenNum, ¬ (batch.tree b).Above u node →
    out.predicts (b * batch.input.draftTokenNum + u) = start (b * batch.input.draftTokenNum + u)

/-- The part of the predictions that belongs to a request. -/
def Within (batch : TreeBatch) (b idx : Nat) : Prop :=
  ∃ u < batch.input.draftTokenNum, idx = b * batch.input.draftTokenNum + u

theorem verifyRequest_spec (target : Nat → List Nat → Nat) (hb : b < batch.input.bs)
    (hfuel : batch.input.draftTokenNum ≤ fuel) (out : VerifyOutput) :
    ∃ out' node, batch.input.verifyRequest (batch.targetPredict target) fuel b out = some out' ∧
      Accepted batch target b node out.predicts out' ∧
      (∀ idx, ¬ batch.Within b idx → out'.predicts idx = out.predicts idx) ∧
      ∀ b', b' ≠ b → out'.acceptTokenNum b' = out.acceptTokenNum b' := by
  have hdepth : (batch.tree b).depth 0 + batch.input.specSteps = batch.input.specSteps := by
    rw [ParentTree.depth_of_none (batch.root_parent b), Nat.zero_add]
  obtain ⟨s, node, hloop, hreached, hends⟩ :=
    (reached_initState target hb out).verifyLoop hb hfuel hdepth
  have hpredicts : (VerifyInput.finishState (batch.targetPredict target) b out s).predicts =
      Function.update s.predicts (b * batch.input.draftTokenNum + node)
        (target b (batch.pathTokens b node)) := by
    unfold VerifyInput.finishState
    dsimp only
    rw [hreached.last, targetPredict_apply hreached.lt]
  refine ⟨VerifyInput.finishState (batch.targetPredict target) b out s, node, ?_, ?_, ?_, ?_⟩
  · unfold VerifyInput.verifyRequest
    rw [hloop, Option.map_some]
  · constructor
    · exact hreached.lt
    · exact hreached.agrees
    · exact hends
    · unfold VerifyInput.finishState
      dsimp only
      rw [Function.update_self, hreached.count]
    · intro u hu
      rw [hpredicts]
      by_cases heq : u = node
      · rw [heq, Function.update_self]
      · rw [Function.update_of_ne (by omega)]
        exact hreached.written u hu heq
    · intro u _ hu
      have hne : u ≠ node := by
        rintro rfl
        exact hu (ParentTree.Above.refl _ _)
      rw [hpredicts, Function.update_of_ne (by omega)]
      apply hreached.kept
      intro v hv _ heq
      exact hu (Nat.add_left_cancel heq ▸ hv)
  · intro idx hidx
    rw [hpredicts, Function.update_of_ne fun heq => hidx ⟨node, hreached.lt, heq⟩]
    apply hreached.kept
    intro u hu _ heq
    exact hidx ⟨u, Nat.lt_of_le_of_lt hu.le hreached.lt, heq⟩
  · intro b' hb'
    exact Function.update_of_ne hb' _ _

theorem not_within_of_lt {b' : Nat} (h : b' < b) {u : Nat} (hu : u < batch.input.draftTokenNum) :
    ¬ batch.Within b (b' * batch.input.draftTokenNum + u) := by
  rintro ⟨v, _, heq⟩
  have hle : (b' + 1) * batch.input.draftTokenNum ≤ b * batch.input.draftTokenNum :=
    Nat.mul_le_mul_right _ h
  rw [Nat.add_mul, Nat.one_mul] at hle
  omega

/-- All requests: what one gets does not depend on the others. -/
theorem verifyTreeGreedy_spec (target : Nat → List Nat → Nat) {count : Nat}
    (hcount : count ≤ batch.input.bs)
    (hfuel : batch.input.draftTokenNum ≤ fuel) (out : VerifyOutput) :
    ∃ out', batch.input.verifyTreeGreedy (batch.targetPredict target) fuel out count = some out' ∧
      (∀ b < count, ∃ node, Accepted batch target b node out.predicts out') ∧
      ∀ b ≥ count, ∀ u,
        out'.predicts (b * batch.input.draftTokenNum + u) =
          out.predicts (b * batch.input.draftTokenNum + u) := by
  induction count with
  | zero => exact ⟨out, rfl, fun b hb => absurd hb (Nat.not_lt_zero b), fun _ _ _ => rfl⟩
  | succ count ih =>
    obtain ⟨before, hbefore, haccepted, hkept⟩ := ih (by omega)
    obtain ⟨after, node, hafter, hnode, hothers, hcounts⟩ :=
      verifyRequest_spec target (show count < batch.input.bs by omega) hfuel before
    refine ⟨after, ?_, ?_, ?_⟩
    · unfold VerifyInput.verifyTreeGreedy
      rw [hbefore, Option.bind_some, hafter]
    · intro b hb
      rcases Nat.lt_succ_iff_lt_or_eq.mp hb with hlt | rfl
      · obtain ⟨node', h⟩ := haccepted b hlt
        refine ⟨node', h.lt, h.agrees, h.ends, ?_, ?_, ?_⟩
        · rw [hcounts b hlt.ne, h.count]
        · intro u hu
          rw [hothers _ (not_within_of_lt hlt (Nat.lt_of_le_of_lt hu.le h.lt)), h.written u hu]
        · intro u hu hno
          rw [hothers _ (not_within_of_lt hlt hu), h.kept u hu hno]
      · refine ⟨node, hnode.lt, hnode.agrees, hnode.ends, hnode.count, hnode.written, ?_⟩
        intro u hu hno
        rw [hnode.kept u hu hno, hkept b (le_refl b)]
    · intro b hb u
      rw [hothers, hkept b (by omega)]
      rintro ⟨v, hv, heq⟩
      have hle : (count + 1) * batch.input.draftTokenNum ≤ b * batch.input.draftTokenNum :=
        Nat.mul_le_mul_right _ hb
      rw [Nat.add_mul, Nat.one_mul] at hle
      omega

/-! ### Reading the tokens back -/

theorem resolve_of_mem {result : SampleOutput} {layout : SlotLayout} {draftTokenNum slot : Nat}
    (h : slot ∈ layout.slots) :
    resolveSpecDecodeTokenIds result layout draftTokenNum slot =
      (List.range (result.acceptLength slot)).map fun k =>
        result.predict (slot * draftTokenNum + k) := by
  have hfold : ∀ (slots : List Nat) (start : Nat → List Nat),
      slots.foldl (fun predictTokens i => Function.update predictTokens i
        ((List.range (result.acceptLength i)).map fun k => result.predict (i * draftTokenNum + k)))
        start slot =
      if slot ∈ slots then (List.range (result.acceptLength slot)).map fun k =>
        result.predict (slot * draftTokenNum + k) else start slot := by
    intro slots
    induction slots with
    | nil => intro start; rfl
    | cons first rest ih =>
      intro start
      rw [List.foldl_cons, ih]
      by_cases hrest : slot ∈ rest
      · rw [if_pos hrest, if_pos (List.mem_cons_of_mem _ hrest)]
      · rw [if_neg hrest]
        by_cases hfirst : slot = first
        · rw [← hfirst, Function.update_self, if_pos List.mem_cons_self]
        · rw [Function.update_of_ne hfirst, if_neg (by simp [hfirst, hrest])]
  unfold resolveSpecDecodeTokenIds
  rw [hfold, if_pos h]

/-- The accepted nodes are the first ones of the tree. -/
def AcceptsInOrder (batch : TreeBatch) (target : Nat → List Nat → Nat) (b : Nat) : Prop :=
  ∀ t < batch.input.draftTokenNum, batch.Agrees target b t → t = (batch.tree b).depth t

/-- What the path to an accepted node says next. -/
theorem Agrees.target_eq (h : batch.Agrees target b t) {count : Nat}
    (hcount : (batch.tree b).depth t < count) :
    (greedy (target b) [batch.token b 0] count)[(batch.tree b).depth t]? =
      some (target b (batch.pathTokens b t)) := by
  rw [getElem?_greedy hcount, h]
  rfl

theorem Accepted.isAcceptLength {node : Nat} {start : Nat → Nat} {out : VerifyOutput}
    (hb : b < batch.input.bs) (h : Accepted batch target b node start out) :
    batch.IsAcceptLength target b (out.acceptTokenNum b + 1) := by
  rw [h.count]
  exact h.agrees.isAcceptLength hb h.lt h.ends

/-- In order, the first places hold what greedy decoding says. -/
theorem Accepted.predicts_of_inOrder {node k : Nat} {start : Nat → Nat} {out : VerifyOutput}
    (h : Accepted batch target b node start out) (horder : batch.AcceptsInOrder target b)
    (hk : k < out.acceptTokenNum b + 1) :
    some (out.predicts (b * batch.input.draftTokenNum + k)) =
      (greedy (target b) [batch.token b 0] (out.acceptTokenNum b + 1))[k]? := by
  rw [h.count] at hk ⊢
  obtain ⟨u, hu, hdepth⟩ := (batch.tree b).exists_above (Nat.lt_succ_iff.mp hk)
  have hagrees := h.agrees.above hu
  have hnumber : u = k := by
    rw [horder u (Nat.lt_of_le_of_lt hu.le h.lt) hagrees, hdepth]
  subst hnumber
  have htarget := hagrees.target_eq (hdepth.symm ▸ hk)
  rw [hdepth] at htarget
  rw [htarget, h.written _ hu]

/-- Out of order, there is a place that is read but not written. -/
theorem exists_unwritten {node : Nat} (hb : b < batch.input.bs)
    (hnode : node < batch.input.draftTokenNum) (h : batch.Agrees target b node)
    (hends : ∀ t, (batch.tree b).parent t = some node → ¬ batch.Agrees target b t)
    (horder : ¬ batch.AcceptsInOrder target b) :
    ∃ k < (batch.tree b).depth node + 1,
      k < batch.input.draftTokenNum ∧ ¬ (batch.tree b).Above k node := by
  classical
  have hexists : ∃ d, ∃ t < batch.input.draftTokenNum, batch.Agrees target b t ∧
      (batch.tree b).depth t = d ∧ t ≠ d := by
    by_contra hno
    apply horder
    intro t ht hagrees
    by_contra hne
    exact hno ⟨_, t, ht, hagrees, rfl, hne⟩
  -- the least depth at which the number of the node is not its depth
  obtain ⟨t, ht, hagrees, hdepth, hne⟩ := Nat.find_spec hexists
  have hleast := fun d => Nat.find_min hexists (m := d)
  generalize Nat.find hexists = d at hdepth hne hleast
  have hlong := (h.isAcceptLength hb hnode hends).longest t ht hagrees
  have hdlt : d < t := by
    have hle := (batch.tree b).depth_le t
    omega
  refine ⟨d, by omega, by omega, fun hd => ?_⟩
  have hagreesd := h.above hd
  have hdepthd := (batch.tree b).depth_le d
  rcases Nat.lt_or_eq_of_le hdepthd with hlt | heq
  · exact hleast _ hlt ⟨d, by omega, hagreesd, rfl, by omega⟩
  · exact hdlt.ne (hagreesd.unique hb (by omega) ht hagrees (heq.trans hdepth.symm))

/-- The end of the longest path that agrees is one node. -/
theorem Accepted.node_unique {node node' : Nat} {start start' : Nat → Nat}
    {out out' : VerifyOutput} (hb : b < batch.input.bs)
    (h : Accepted batch target b node start out)
    (h' : Accepted batch target b node' start' out') : node = node' := by
  have hlong := (h.agrees.isAcceptLength hb h.lt h.ends).longest node' h'.lt h'.agrees
  have hlong' := (h'.agrees.isAcceptLength hb h'.lt h'.ends).longest node h.lt h.agrees
  exact h.agrees.unique hb h.lt h'.lt h'.agrees (by omega)

end TreeBatch

end SglJax.Speculative
