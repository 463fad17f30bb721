import SglJax.Speculative.VerifyRound

/-! Verify inputs of chains, in closed form. With one candidate in each step the tree that the
kernel builds is the chain of the first candidates, and both builders of the closed form give
its arrays. -/
namespace SglJax.Speculative

/-! ### Flat arrays -/

/-- `matrix.reshape(-1)` for a matrix of shape `(bs, n)` -/
def flatRows {α : Type} (bs n : Nat) (matrix : Nat → Nat → α) : List α :=
  (List.range bs).flatMap fun bid => (List.range n).map (matrix bid)

section flat

variable {α : Type} {bs n : Nat} {matrix matrix' : Nat → Nat → α}

theorem flatRows_succ : flatRows (bs + 1) n matrix =
    flatRows bs n matrix ++ (List.range n).map (matrix bs) := by
  unfold flatRows
  rw [List.range_succ, List.flatMap_append, List.flatMap_singleton]

theorem length_flatRows : (flatRows bs n matrix).length = bs * n := by
  induction bs with
  | zero => rw [Nat.zero_mul]; rfl
  | succ bs ih =>
    rw [flatRows_succ, List.length_append, ih, List.length_map, List.length_range, Nat.succ_mul]

theorem flatRows_congr (h : ∀ bid < bs, ∀ tid < n, matrix bid tid = matrix' bid tid) :
    flatRows bs n matrix = flatRows bs n matrix' := by
  induction bs with
  | zero => rfl
  | succ bs ih =>
    rw [flatRows_succ, flatRows_succ, ih fun bid hbid => h bid (by omega)]
    congr 1
    apply List.map_congr_left
    intro tid htid
    exact h bs (Nat.lt_succ_self bs) tid (List.mem_range.mp htid)

theorem map_range_mul (f : Nat → α) :
    (List.range (bs * n)).map f = flatRows bs n fun bid tid => f (bid * n + tid) := by
  induction bs with
  | zero => rw [Nat.zero_mul]; rfl
  | succ bs ih =>
    rw [flatRows_succ, Nat.succ_mul, List.range_add, List.map_append, ih, List.map_map]
    rfl

theorem getElem?_flatRows {bid tid : Nat} (hbid : bid < bs) (htid : tid < n) :
    (flatRows bs n matrix)[bid * n + tid]? = some (matrix bid tid) := by
  induction bs with
  | zero => omega
  | succ bs ih =>
    rw [flatRows_succ]
    rcases Nat.lt_succ_iff_lt_or_eq.mp hbid with hlt | rfl
    · have hle : (bid + 1) * n ≤ bs * n := Nat.mul_le_mul_right n hlt
      rw [Nat.succ_mul] at hle
      rw [List.getElem?_append_left (by rw [length_flatRows]; omega), ih hlt]
    · rw [List.getElem?_append_right (by rw [length_flatRows]; omega), length_flatRows,
        Nat.add_sub_cancel_left]
      simp [htid]

theorem flatMap_eq_flatRows {β : Type} {xs : List β} {f : β → List α}
    (h : ∀ (i : Nat) (x : β), xs[i]? = some x → f x = (List.range n).map (matrix i)) :
    xs.flatMap f = flatRows xs.length n matrix := by
  induction xs using List.reverseRecOn with
  | nil => rfl
  | append_singleton xs x ih =>
    rw [List.flatMap_append, List.length_append, List.length_singleton, flatRows_succ,
      List.flatMap_singleton]
    congr 1
    · apply ih
      intro i y hy
      apply h i y
      rw [List.getElem?_append_left (List.getElem?_eq_some_iff.mp hy).1, hy]
    · exact h xs.length x List.getElem?_concat_length

end flat

/-! ### The builders -/

/-- `build_chain_verify_inputs`: the rows of a `(5, bs * n)` array, and the row of next tokens
before it is broadcast, start with any content. -/
def buildChainVerifyInputsHost (verifiedId : Nat → Nat) (tokenList : Nat → Nat → Nat)
    (seqLens : Nat → Nat) (numVerifyTokens batchSize : Nat) (empty : Nat → Nat → Nat → Int)
    (emptyRow : Nat → Int) : List (List Int) :=
  let n := numVerifyTokens
  let draftTokens := fun bid => setSlice 1 (n - 1) (fun j => (tokenList bid j : Int))
    (setSlice 0 1 (fun _ => (verifiedId bid : Int)) (empty 0 bid))
  let positions := fun (bid tid : Nat) => (seqLens bid : Int) + (tid : Int)
  let nextTokenRow := setSlice (n - 1) 1 (fun _ => -1)
    (setSlice 0 (n - 1) (fun i => ((1 + i : Nat) : Int)) emptyRow)
  [flatRows batchSize n draftTokens,
    flatRows batchSize n positions,
    (List.range (batchSize * n)).map Int.ofNat,
    flatRows batchSize n fun _ => nextTokenRow,
    List.replicate (batchSize * n) (-1)]

/-- `jnp.concatenate([left, right], axis=1)` -/
def concatColumns (width : Nat) (left right : Nat → Nat → Int) : Nat → Nat → Int :=
  fun bid tid => if tid < width then left bid tid else right bid (tid - width)

/-- `build_chain_verify_inputs_device` -/
def buildChainVerifyInputsDevice (verifiedId : Nat → Nat) (tokenList : Nat → Nat → Nat)
    (seqLens : Nat → Nat) (numVerifyTokens batchSize : Nat) : List (List Int) :=
  let n := numVerifyTokens
  [flatRows batchSize n (concatColumns 1 (fun bid _ => (verifiedId bid : Int))
      fun bid j => (tokenList bid j : Int)),
    flatRows batchSize n fun bid tid => (seqLens bid : Int) + (tid : Int),
    (List.range (batchSize * n)).map Int.ofNat,
    flatRows batchSize n (concatColumns (n - 1) (fun _ i => ((1 + i : Nat) : Int)) fun _ _ => -1),
    List.replicate (batchSize * n) (-1)]

/-- A link; `none` is -1. -/
def linkValue (link : Option Nat) : Int := link.elim (-1) Int.ofNat

section builders

variable {verifiedId seqLens : Nat → Nat} {tokenList : Nat → Nat → Nat}
  {numVerifyTokens batchSize : Nat}

/-- The five rows of a chain. -/
def chainRows (verifiedId : Nat → Nat) (tokenList : Nat → Nat → Nat) (seqLens : Nat → Nat)
    (n bs : Nat) : List (List Int) :=
  [flatRows bs n fun bid tid => (if tid = 0 then verifiedId bid else tokenList bid (tid - 1) : Nat),
    flatRows bs n fun bid tid => (seqLens bid + tid : Nat),
    flatRows bs n fun bid tid => linkValue (some (bid * n + tid)),
    flatRows bs n fun _ tid => linkValue (if tid + 1 < n then some (tid + 1) else none),
    flatRows bs n fun _ _ => linkValue none]

theorem replicate_mul (bs n : Nat) (value : Int) :
    List.replicate (bs * n) value = flatRows bs n fun _ _ => value := by
  rw [← map_range_mul (fun _ => value), List.map_const', List.length_range]

/-- Rows with equal entries are equal. -/
theorem rows_congr {draft draft' positions positions' next next' : Nat → Nat → Int}
    (hdraft : ∀ bid < batchSize, ∀ tid < numVerifyTokens, draft bid tid = draft' bid tid)
    (hpositions : ∀ bid < batchSize, ∀ tid < numVerifyTokens,
      positions bid tid = positions' bid tid)
    (hnext : ∀ bid < batchSize, ∀ tid < numVerifyTokens, next bid tid = next' bid tid) :
    [flatRows batchSize numVerifyTokens draft, flatRows batchSize numVerifyTokens positions,
      (List.range (batchSize * numVerifyTokens)).map Int.ofNat,
      flatRows batchSize numVerifyTokens next,
      List.replicate (batchSize * numVerifyTokens) (-1)] =
    [flatRows batchSize numVerifyTokens draft', flatRows batchSize numVerifyTokens positions',
      flatRows batchSize numVerifyTokens fun bid tid =>
        linkValue (some (bid * numVerifyTokens + tid)),
      flatRows batchSize numVerifyTokens next',
      flatRows batchSize numVerifyTokens fun _ _ => linkValue none] := by
  rw [flatRows_congr hdraft, flatRows_congr hpositions, flatRows_congr hnext, map_range_mul,
    replicate_mul]
  rfl

theorem buildChainVerifyInputsHost_eq (hpos : 0 < numVerifyTokens) (empty : Nat → Nat → Nat → Int)
    (emptyRow : Nat → Int) :
    buildChainVerifyInputsHost verifiedId tokenList seqLens numVerifyTokens batchSize empty
      emptyRow = chainRows verifiedId tokenList seqLens numVerifyTokens batchSize := by
  apply rows_congr
  · intro bid _ tid htid
    unfold setSlice
    rcases Nat.eq_zero_or_pos tid with rfl | htid0
    · simp
    · rw [if_pos ⟨htid0, by omega⟩, if_neg (by omega)]
  · intro bid _ tid _
    exact (Nat.cast_add _ _).symm
  · intro bid _ tid htid
    unfold setSlice linkValue
    by_cases hlast : tid + 1 < numVerifyTokens
    · rw [if_neg (by omega), if_pos ⟨by omega, by omega⟩, if_pos hlast, Nat.sub_zero,
        Nat.add_comm]
      rfl
    · rw [if_pos ⟨by omega, by omega⟩, if_neg hlast]
      rfl

theorem buildChainVerifyInputsDevice_eq (hpos : 0 < numVerifyTokens) :
    buildChainVerifyInputsDevice verifiedId tokenList seqLens numVerifyTokens batchSize =
      chainRows verifiedId tokenList seqLens numVerifyTokens batchSize := by
  apply rows_congr
  · intro bid _ tid _
    unfold concatColumns
    by_cases hzero : tid = 0
    · rw [if_pos (by omega), if_pos hzero]
    · rw [if_neg (by omega), if_neg hzero]
  · intro bid _ tid _
    exact (Nat.cast_add _ _).symm
  · intro bid _ tid htid
    unfold concatColumns linkValue
    by_cases hlast : tid + 1 < numVerifyTokens
    · rw [if_pos (by omega), if_pos hlast, Nat.add_comm]
      rfl
    · rw [if_neg (by omega), if_neg hlast]
      rfl

end builders

/-! ### The tree of a single candidate in each step -/

/-- A sorted list that holds every number below its members is a range. -/
theorem eq_range_of_closed {xs : List Nat} (hsorted : xs.Pairwise (· < ·))
    (hclosed : ∀ c, c + 1 ∈ xs → c ∈ xs) : xs = List.range xs.length := by
  have hbelow : ∀ c ∈ xs, ∀ d ≤ c, d ∈ xs := by
    intro c hc d hd
    induction c with
    | zero => rwa [Nat.le_zero.mp hd]
    | succ c ih =>
      rcases Nat.lt_or_eq_of_le hd with hlt | rfl
      · exact ih (hclosed c hc) (by omega)
      · exact hc
  have hnodup : xs.Nodup := hsorted.imp fun h => h.ne
  have hlt : ∀ c ∈ xs, c < xs.length := by
    intro c hc
    have hsub : List.range (c + 1) ⊆ xs := by
      intro d hd
      exact hbelow c hc d (by simpa [Nat.lt_succ_iff] using hd)
    have hle := (List.subperm_of_subset List.nodup_range hsub).length_le
    rw [List.length_range] at hle
    exact hle
  have hperm : xs.Perm (List.range xs.length) := by
    apply (List.subperm_of_subset hnodup ?_).perm_of_length_le
    · rw [List.length_range]
    · intro c hc
      exact List.mem_range.mpr (hlt c hc)
  exact hperm.eq_of_pairwise (fun a b _ _ hab hba => absurd hab (Nat.lt_asymm hba)) hsorted
    List.pairwise_lt_range

section chain

variable {R : Type} [Semiring R] [LinearOrder R]

theorem kept_one (draft : Nat → DraftOutput R) (empty : DraftState R) (i : Nat) :
    kept draft 1 empty i 0 = i := by
  cases i with
  | zero => rfl
  | succ i =>
    have hcs := csIndex_lt (draft (i + 1)) (draftForward draft 1 empty (i + 1)).scores
      (show 0 < 1 by omega)
    have hzero : (topkCsIndex (draft (i + 1)) (draftForward draft 1 empty (i + 1)).scores 1).getD
        0 0 = 0 := by omega
    rw [kept, hzero, Nat.one_pow, Nat.mul_one, Nat.add_zero, Nat.add_comm]

theorem parentOf_one (draft : Nat → DraftOutput R) (empty : DraftState R) (c : Nat) :
    parentOf draft 1 empty c = if c = 0 then none else some (c - 1) := by
  unfold parentOf
  by_cases hc : c = 0
  · rw [if_pos (by omega), if_pos hc]
  · have hzero : (c - 1) % 1 ^ 2 / 1 = 0 := by
      rw [Nat.one_pow, Nat.mod_one]
    rw [if_neg (by omega), if_neg hc, hzero, kept_one, Nat.one_pow, Nat.div_one]

variable [IsStrictOrderedRing R] (d : Drafting R 1) {numVerifyTokens steps : Nat}

/-- There are enough candidates for every node behind the first. -/
theorem chain_count (hsteps : numVerifyTokens ≤ steps + 1) :
    numVerifyTokens - 1 ≤ candidateCount 1 steps := by
  unfold candidateCount
  omega

theorem selectedIndex_chain (hsteps : numVerifyTokens ≤ steps + 1) :
    (d.treeInput numVerifyTokens steps).selectedIndex = List.range (numVerifyTokens - 1) := by
  have hlength : (d.treeInput numVerifyTokens steps).selectedIndex.length = numVerifyTokens - 1 :=
    length_selectedIndex (chain_count hsteps)
  rw [← hlength]
  apply eq_range_of_closed
  · exact sorted_selectedIndex
  · intro c hc
    apply parentOf_mem_selectedIndex d.probabilities hc
    rw [parentOf_one, if_neg (Nat.succ_ne_zero c), Nat.add_sub_cancel]

theorem tree_chain (hsteps : numVerifyTokens ≤ steps + 1) :
    d.tree numVerifyTokens steps = chainTree numVerifyTokens := by
  have hcandidates : (d.selection numVerifyTokens steps).candidates =
      List.range (numVerifyTokens - 1) := selectedIndex_chain d hsteps
  have hparent : (d.selection numVerifyTokens steps).parentNode =
      (chainTree numVerifyTokens).parent := by
    funext t
    unfold Selection.parentNode chainTree
    dsimp only
    rw [hcandidates]
    by_cases hzero : t = 0
    · rw [if_pos hzero, if_neg (by omega)]
    rw [if_neg hzero]
    by_cases hlast : t < numVerifyTokens
    · have hentry : (List.range (numVerifyTokens - 1))[t - 1]? = some (t - 1) := by
        rw [List.getElem?_range (by omega)]
      rw [hentry, if_pos ⟨by omega, hlast⟩]
      dsimp only
      have hof : (d.selection numVerifyTokens steps).parentOf (t - 1) =
          if t - 1 = 0 then none else some (t - 1 - 1) := parentOf_one d.draft d.empty (t - 1)
      rw [hof]
      by_cases hfirst : t - 1 = 0
      · rw [if_pos hfirst, hfirst]
      · rw [if_neg hfirst]
        dsimp only
        unfold Selection.nodeOf
        rw [hcandidates]
        have hnodup : (List.range (numVerifyTokens - 1)).Nodup := List.nodup_range
        have hidx := hnodup.idxOf_getElem (t - 1 - 1) (by rw [List.length_range]; omega)
        rw [List.getElem_range] at hidx
        rw [hidx]
        congr 1
        omega
    · rw [List.getElem?_eq_none (by rw [List.length_range]; omega), if_neg (by omega)]
  unfold Drafting.tree Selection.tree
  cases hchain : chainTree numVerifyTokens with
  | mk parent parent_lt =>
    rw [hchain] at hparent
    dsimp only at hparent
    simp only [hparent]

theorem chainTree_above {n t u : Nat} (ht : t < n) : (chainTree n).Above u t ↔ u ≤ t := by
  induction t with
  | zero =>
    have hnone : (chainTree n).parent 0 = none := rfl
    rw [ParentTree.above_of_none hnone]
    omega
  | succ t ih =>
    have hparent : (chainTree n).parent (t + 1) = some t :=
      chainTree_parent_eq_some.mpr ⟨rfl, ht⟩
    rw [ParentTree.above_of_some hparent, ih (by omega)]
    omega

end chain

/-! ### The root has no sibling -/

namespace KernelInput

variable (input : KernelInput) {row : Retrive} {out : TreeOutput}

theorem prependChild_root (i parent : Nat) (h : row.nextSibling 0 = none) :
    (prependChild row (i + 1) parent).nextSibling 0 = none := by
  unfold prependChild
  split
  · exact h
  · dsimp only
    rw [Function.update_of_ne (Nat.succ_ne_zero i).symm]
    exact h

theorem linkNodes_root (bid i : Nat) (h : row.nextSibling 0 = none) :
    (input.linkNodes bid i row).nextSibling 0 = none := by
  induction i generalizing row with
  | zero => exact h
  | succ i ih =>
    apply ih
    unfold linkNode
    dsimp only
    split
    · exact h
    · exact prependChild_root i _ h

theorem buildTreeBody_root (bid tid : Nat) (h : (out.retrive bid).nextSibling 0 = none) :
    ((input.buildTreeBody bid out tid).retrive bid).nextSibling 0 = none := by
  unfold buildTreeBody
  dsimp only
  split
  · dsimp only
    rw [Function.update_self]
    exact input.linkNodes_root bid _ h
  · dsimp only
    rw [Function.update_self]
    exact h

theorem foldl_buildTreeBody_root (bid : Nat) (tids : List Nat)
    (h : (out.retrive bid).nextSibling 0 = none) :
    ((tids.foldl (input.buildTreeBody bid) out).retrive bid).nextSibling 0 = none := by
  induction tids generalizing out with
  | nil => exact h
  | cons tid rest ih => exact ih (input.buildTreeBody_root bid tid h)

theorem foldl_buildTreeBody_of_ne {b bid : Nat} (hb : b ≠ bid) (tids : List Nat) :
    (tids.foldl (input.buildTreeBody bid) out).retrive b = out.retrive b := by
  induction tids generalizing out with
  | nil => rfl
  | cons tid rest ih => rw [List.foldl_cons, ih, buildTreeBody_retrive_of_ne hb]

theorem buildTrees_root (hn : 0 < input.draftTokenNum) {b bs : Nat} (hb : b < bs) :
    ((input.buildTrees bs out).retrive b).nextSibling 0 = none := by
  unfold buildTrees
  induction bs with
  | zero => omega
  | succ bs ih =>
    rw [List.range_succ, List.foldl_append]
    dsimp only [List.foldl_cons, List.foldl_nil]
    unfold buildRequest
    rcases Nat.lt_succ_iff_lt_or_eq.mp hb with hlt | rfl
    · rw [input.foldl_buildTreeBody_of_ne hlt.ne]
      unfold initOutput
      dsimp only
      rw [Function.update_of_ne hlt.ne]
      exact ih hlt
    · apply input.foldl_buildTreeBody_root
      unfold initOutput
      dsimp only
      rw [Function.update_self]
      exact if_pos ⟨le_refl 0, by omega⟩

end KernelInput

/-! ### The arrays of both -/

/-- `build_tree_kernel_efficient` -/
def buildTreeKernelEfficient {R : Type} {topk : Nat} [Semiring R] [LinearOrder R]
    [IsStrictOrderedRing R] (batch : List (Drafting R topk))
    (numVerifyTokens steps maxSeqLenPerReq : Nat) (out : TreeOutput) : TreeOutput × List Nat :=
  (buildEagleTreeStructure (batch.map fun d => d.treeInput numVerifyTokens steps)
      (batch.map Drafting.seqLen) (sumSeqLens (batch.map Drafting.seqLen)) numVerifyTokens topk
      maxSeqLenPerReq .fullMask out,
    batch.flatMap fun d => (d.treeInput numVerifyTokens steps).draftTokens)

/-- The draft tokens, positions and link arrays of a tree, packed like those of a chain. -/
def packTree (tree : TreeOutput × List Nat) (n bs : Nat) : List (List Int) :=
  [tree.2.map Int.ofNat,
    (List.range (bs * n)).map fun idx => Int.ofNat (tree.1.positions idx),
    flatRows bs n fun bid tid => linkValue ((tree.1.retrive bid).index tid),
    flatRows bs n fun bid tid => linkValue ((tree.1.retrive bid).nextToken tid),
    flatRows bs n fun bid tid => linkValue ((tree.1.retrive bid).nextSibling tid)]

section batch

variable {R : Type} [Semiring R] [LinearOrder R] [IsStrictOrderedRing R]
  (batch : List (Drafting R 1)) {numVerifyTokens steps : Nat}

def verifiedIds (bid : Nat) : Nat := batch[bid]?.elim 0 Drafting.verifiedId

def verifiedSeqLens (bid : Nat) : Nat := batch[bid]?.elim 0 Drafting.seqLen

/-- `token_list` after all steps. -/
def tokenLists (steps bid j : Nat) : Nat :=
  batch[bid]?.elim 0 fun d => (draftForward d.draft 1 d.empty steps).lists.tokenList j

theorem draftTokens_chain (hpos : 0 < numVerifyTokens) (hsteps : numVerifyTokens ≤ steps + 1)
    {bid : Nat} {d : Drafting R 1} (hd : batch[bid]? = some d) :
    (d.treeInput numVerifyTokens steps).draftTokens = (List.range numVerifyTokens).map fun tid =>
      if tid = 0 then verifiedIds batch bid else tokenLists batch steps bid (tid - 1) := by
  have htokens : (d.treeInput numVerifyTokens steps).draftTokens = d.verifiedId ::
      (d.treeInput numVerifyTokens steps).selectedIndex.map
        (draftForward d.draft 1 d.empty steps).lists.tokenList := rfl
  obtain ⟨n, rfl⟩ : ∃ n, numVerifyTokens = n + 1 := ⟨numVerifyTokens - 1, by omega⟩
  rw [htokens, selectedIndex_chain d hsteps, List.range_succ_eq_map, List.map_cons, List.map_map,
    if_pos rfl, Nat.add_sub_cancel]
  unfold verifiedIds tokenLists
  rw [hd]
  rfl

omit [IsStrictOrderedRing R] in
/-- A link to the only child of a node of a chain. -/
theorem linked_chain {out : TreeOutput} {b t : Nat}
    (h : EncodesTree (batch.map Drafting.seqLen) numVerifyTokens (chainTree numVerifyTokens) b out)
    (ht : t < numVerifyTokens) :
    (out.retrive b).nextToken t = (if t + 1 < numVerifyTokens then some (t + 1) else none) ∧
      (t + 1 < numVerifyTokens → (out.retrive b).nextSibling (t + 1) = none) := by
  obtain ⟨nodes, hlinked, hnodup, hmem⟩ := h.children t ht
  have hchild : ∀ u, u ∈ nodes ↔ u = t + 1 ∧ u < numVerifyTokens := by
    intro u
    rw [hmem, chainTree_parent_eq_some]
  generalize (out.retrive b).nextToken t = first at hlinked ⊢
  cases hlinked with
  | nil =>
    have hlast : ¬ t + 1 < numVerifyTokens := fun hlt => by
      simpa using (hchild (t + 1)).mpr ⟨rfl, hlt⟩
    rw [if_neg hlast]
    exact ⟨rfl, fun hlt => absurd hlt hlast⟩
  | @cons u rest hrest =>
    obtain ⟨rfl, hlt⟩ := (hchild u).mp List.mem_cons_self
    rw [if_pos hlt]
    refine ⟨rfl, fun _ => ?_⟩
    -- a second child would be the same node
    cases rest with
    | nil =>
      generalize (out.retrive b).nextSibling (t + 1) = next at hrest ⊢
      cases hrest
      rfl
    | cons v rest =>
      have hv := ((hchild v).mp (List.mem_cons_of_mem _ List.mem_cons_self)).1
      rw [hv] at hnodup
      simp at hnodup

/-- The arrays of the tree are those of the chain. -/
theorem packTree_chain (maxSeqLenPerReq : Nat) (out : TreeOutput) (hpos : 0 < numVerifyTokens)
    (hsteps : numVerifyTokens ≤ steps + 1) :
    packTree (buildTreeKernelEfficient batch numVerifyTokens steps maxSeqLenPerReq out)
        numVerifyTokens batch.length =
      chainRows (verifiedIds batch) (tokenLists batch steps) (verifiedSeqLens batch)
        numVerifyTokens batch.length := by
  have hencodes : ∀ b < batch.length,
      EncodesTree (batch.map Drafting.seqLen) numVerifyTokens (chainTree numVerifyTokens) b
        (buildTreeKernelEfficient batch numVerifyTokens steps maxSeqLenPerReq out).1 := by
    intro b hb
    have h := encodesTree_of_lt batch maxSeqLenPerReq out hpos (chain_count hsteps) hb
    unfold treeAt at h
    rw [List.getElem?_eq_getElem hb] at h
    dsimp only at h
    rwa [tree_chain batch[b] hsteps] at h
  unfold packTree chainRows
  congr 1
  · unfold buildTreeKernelEfficient
    dsimp only
    rw [List.map_flatMap]
    apply flatMap_eq_flatRows
    intro i d hd
    rw [draftTokens_chain batch hpos hsteps hd, List.map_map]
    rfl
  congr 1
  · rw [map_range_mul]
    apply flatRows_congr
    intro b hb t ht
    rw [(hencodes b hb).positions t ht, chainTree_depth ht]
    unfold verifiedSeqLens
    simp [List.getD_eq_getElem?_getD, hb]
  congr 1
  · apply flatRows_congr
    intro b hb t ht
    rw [(hencodes b hb).index t ht]
  congr 1
  · apply flatRows_congr
    intro b hb t ht
    rw [(linked_chain batch (hencodes b hb) ht).1]
  · congr 1
    apply flatRows_congr
    intro b hb t ht
    cases t with
    | zero =>
      unfold buildTreeKernelEfficient buildEagleTreeStructure
      dsimp only
      rw [List.length_map, KernelInput.buildTrees_root _ hpos hb]
    | succ t => rw [(linked_chain batch (hencodes b hb) (by omega)).2 ht]

/-- The mask of a chain is causal. -/
theorem mask_chain (maxSeqLenPerReq : Nat) (out : TreeOutput) (hpos : 0 < numVerifyTokens)
    (hsteps : numVerifyTokens ≤ steps + 1) {b t col : Nat} (hb : b < batch.length)
    (ht : t < numVerifyTokens) (hcol : col < verifiedSeqLens batch b + numVerifyTokens) :
    KernelInput.Marked
      ((buildTreeKernelEfficient batch numVerifyTokens steps maxSeqLenPerReq out).1.treeMask
        ((Finset.range b).sum (fun i => numVerifyTokens *
          (verifiedSeqLens batch i + numVerifyTokens)) +
          (verifiedSeqLens batch b + numVerifyTokens) * t + col))
      (col ≤ verifiedSeqLens batch b + t) := by
  have hlens : ∀ i, (batch.map Drafting.seqLen).getD i 0 = verifiedSeqLens batch i := by
    intro i
    unfold verifiedSeqLens
    rw [List.getD_eq_getElem?_getD, List.getElem?_map]
    cases batch[i]? <;> rfl
  have hencodes := encodesTree_of_lt batch maxSeqLenPerReq out hpos (chain_count hsteps) hb
  unfold treeAt at hencodes
  rw [List.getElem?_eq_getElem hb] at hencodes
  dsimp only at hencodes
  rw [tree_chain batch[b] hsteps] at hencodes
  have hmask := hencodes.mask t ht col (by rw [hlens]; exact hcol)
  simp only [hlens] at hmask
  refine hmask.congr ?_
  constructor
  · rintro (hlt | ⟨u, rfl, habove⟩)
    · omega
    · have := (chainTree_above ht).mp habove
      omega
  · intro hle
    by_cases hlt : col < verifiedSeqLens batch b
    · exact .inl hlt
    · refine .inr ⟨col - verifiedSeqLens batch b, by omega, ?_⟩
      exact (chainTree_above ht).mpr (by omega)

end batch

end SglJax.Speculative
