import SglJax.Layers.MoeShards

/-! The layer of experts against its meaning: a token gets the weighted sum of the outputs of
its experts, whatever the mesh is, however the rows are gathered and whichever way the results
are put together. -/
namespace SglJax.Layers

open Lora (Mat)
open Foundation

variable {K : Type} [CommRing K]

section Reference

/-- The group of a row. -/
def groupOf (sizes : List Nat) (r : Nat) : Option Nat :=
  (List.range sizes.length).find? fun g =>
    (sizes.take g).sum ≤ r ∧ r < (sizes.take (g + 1)).sum

theorem groupOf_eq {sizes : List Nat} {g r : Nat} (h : InGroup sizes g r) :
    groupOf sizes r = some g := by
  unfold groupOf
  cases hfind : (List.range sizes.length).find? _ with
  | none =>
    have hnone := List.find?_eq_none.mp hfind g (List.mem_range.mpr h.1)
    exact absurd (by simpa using h.2) hnone
  | some g' =>
    have hrange := List.find?_some hfind
    have hmem := List.mem_of_find?_eq_some hfind
    rw [List.mem_range] at hmem
    have hgroup : InGroup sizes g' r := ⟨hmem, by simpa using hrange⟩
    rw [hgroup.unique h]

/-- `reference_gmm`, row by row -/
def referenceGmm {k n groups : Nat} (lhs : List (Fin k → K))
    (rhs : Fin groups → Matrix (Fin k) (Fin n) K) (groupSizes : List Nat) (groupOffset : Nat) :
    List (Fin n → K) :=
  lhs.mapIdx fun r x =>
    match groupOf groupSizes r with
    | some g =>
      if h : groupOffset ≤ g ∧ g - groupOffset < groups then
        Matrix.vecMul x (rhs ⟨g - groupOffset, h.2⟩)
      else 0
    | none => 0

section Gmm

variable {k n groups : Nat} {lhs : List (Fin k → K)} {sizes : List Nat} {offset r : Nat}

theorem referenceGmm_visited (rhs : Fin groups → Matrix (Fin k) (Fin n) K) {g : Fin groups}
    {x : Fin k → K} (hg : InGroup sizes (offset + g) r) (hx : lhs[r]? = some x) :
    (referenceGmm lhs rhs sizes offset)[r]? = some (Matrix.vecMul x (rhs g)) := by
  have hlocal : offset ≤ offset + g ∧ offset + g - offset < groups := by
    have := g.isLt
    omega
  have hown : (⟨offset + g - offset, hlocal.2⟩ : Fin groups) = g :=
    Fin.ext (Nat.add_sub_cancel_left offset g)
  unfold referenceGmm
  rw [List.getElem?_mapIdx, hx, Option.map_some]
  simp only [groupOf_eq hg]
  rw [dif_pos hlocal, hown]

theorem referenceGmm_unvisited (rhs : Fin groups → Matrix (Fin k) (Fin n) K) {g : Nat}
    (hsum : sizes.sum = lhs.length) (hg : InGroup sizes g r)
    (hout : ¬ (offset ≤ g ∧ g < offset + groups)) :
    (referenceGmm lhs rhs sizes offset)[r]? = some 0 := by
  have hr : r < lhs.length := by
    rw [← hsum, ← List.take_length (l := sizes)]
    exact lt_of_lt_of_le hg.2.2 (sum_take_le sizes hg.1)
  unfold referenceGmm
  rw [List.getElem?_mapIdx, List.getElem?_eq_getElem hr, Option.map_some]
  simp only [groupOf_eq hg]
  rw [dif_neg (by omega)]

end Gmm

/-- The kernels without any tiling. -/
def referenceKernels (K : Type) [CommRing K] (alignment : Nat) : MoeKernels K where
  gmm lhs rhs groupSizes groupOffset _ := referenceGmm lhs rhs groupSizes groupOffset
  alignment := some alignment
  shouldUseSparseCore _ _ := true
  raggedGather inputs indices start stop := indices.mapIdx fun i j =>
    if start ≤ i ∧ i < stop then inputs.getD j 0 else 0
  reducible := true
  raggedGatherReduce rows indices weights mask topK :=
    (List.range (indices.length / topK)).map fun b => ((List.range topK).map fun k =>
      (mask.zipWith (fun valid weight => if valid then weight else 0) weights).getD
        (b * topK + k) 0 • rows.getD (indices.getD (b * topK + k) 0) 0).sum

theorem referenceKernels_sound (alignment : Nat) : (referenceKernels K alignment).Sound where
  length _ _ _ _ _ _ _ := List.length_mapIdx
  visited _ rhs _ _ _ _ _ _ _ _ hg hx := referenceGmm_visited rhs hg hx
  unvisited _ rhs _ _ hsum _ _ _ hg hout := referenceGmm_unvisited rhs hsum hg hout
  raggedGather_length _ _ _ _ := List.length_mapIdx
  raggedGather inputs indices start stop i j hstart hstop hj := by
    simp [referenceKernels, hj, hstart, hstop]
  raggedGatherReduce _ _ _ _ _ := rfl

/-- Four experts on two devices, each cut in two. -/
def fourExperts : EPMoE Int where
  hiddenSize := 1
  numExpertsPerTok := 2
  epSize := 2
  expertsPerDevice := 2
  tpSize := 2
  shardDim := 1
  activation := .silu
  swigluAlpha := 0
  swigluLimit := 0
  useScPermute := true
  wi0 expert := fun _ j => expert + j
  wi1 _ := fun _ _ => 1
  wo expert := fun j _ => expert - j

/-- A row of two values for each of two tokens. -/
def twoByTwo {V : Type} (a b c d : V) : Mat V := ⟨2, [[a, b], [c, d]], by simp⟩

end Reference

namespace EPMoE

variable {moe : EPMoE K} {kernels : MoeKernels K} {topkIds : Mat Nat}
  {weights : Mat K}

/-- The weighted sums of the rows of a batch, place by place. -/
def weightedSums (moe : EPMoE K) (numTokens : Nat) (weights : Mat K) (out : Nat → moe.Row) :
    List moe.Row :=
  (List.range numTokens).map fun b => ((List.range moe.numExpertsPerTok).map fun k =>
    weights.rows.flatten.getD (b * moe.numExpertsPerTok + k) 0 •
      out (b * moe.numExpertsPerTok + k)).sum

theorem addContributions_eq {contributions : List moe.Row} (h : contributions ≠ []) :
    moe.addContributions contributions = .ok contributions.sum := by
  cases contributions with
  | nil => exact absurd rfl h
  | cons contribution contributions =>
    rw [addContributions, List.sum_eq_foldl, List.foldl_cons, zero_add]

/-- A masked weight and its row, which is zero. -/
theorem masked_smul {mask : List Bool} {ws : List K} {slot : Nat} {x : moe.Row}
    (hlength : mask.length = ws.length) (hzero : mask[slot]? = some false → x = 0) :
    (mask.zipWith (fun valid weight => if valid then weight else 0) ws).getD slot 0 • x =
      ws.getD slot 0 • x := by
  rw [List.getD_eq_getElem?_getD, List.getD_eq_getElem?_getD, List.getElem?_zipWith]
  cases hmask : mask[slot]? with
  | none => rw [List.getElem?_eq_none (hlength ▸ List.getElem?_eq_none_iff.mp hmask)]
  | some valid =>
    cases valid with
    | false => rw [hzero hmask, smul_zero, smul_zero]
    | true => cases ws[slot]? <;> rfl

section Unpermute

variable {numTokens : Nat} {intermediate : List moe.Row} {out : Nat → moe.Row}

/-- A place of the routing finds its row again. -/
theorem getD_positions (h : moe.Routes numTokens topkIds)
    (hrow : ∀ i slot : Nat, (argsort topkIds.rows.flatten)[i]? = some slot →
      intermediate[i]? = some (out slot)) {slot : Nat}
    (hslot : slot < numTokens * moe.numExpertsPerTok) :
    (intermediate.take (numTokens * moe.numExpertsPerTok) ++
      List.replicate (numTokens * moe.numExpertsPerTok - intermediate.length) 0).getD
        ((positions (argsort topkIds.rows.flatten)).getD slot 0) 0 = out slot := by
  rw [← h.length_flatten] at hslot ⊢
  obtain ⟨i, hi⟩ := List.mem_iff_getElem?.mp (mem_argsort.mpr hslot)
  have hlt : i < topkIds.rows.flatten.length := by
    rw [← length_argsort]
    exact (List.getElem?_eq_some_iff.mp hi).1
  have hget := hrow i slot hi
  have hlt' := (List.getElem?_eq_some_iff.mp hget).1
  have hplace : (positions (argsort topkIds.rows.flatten)).getD slot 0 = i := by
    rw [List.getD_eq_getElem?_getD,
      getElem?_positions (nodup_argsort _) hi (by rwa [length_argsort]), Option.getD_some]
  rw [hplace, List.getD_eq_getElem?_getD,
    List.getElem?_append_left (by rw [List.length_take]; omega),
    List.getElem?_take_of_lt hlt, hget, Option.getD_some]

theorem unpermute_eq (h : moe.Routes numTokens topkIds) (hk : kernels.Sound)
    (hweights : weights.shape = (numTokens, moe.numExpertsPerTok))
    (hrow : ∀ i slot : Nat, (argsort topkIds.rows.flatten)[i]? = some slot →
      intermediate[i]? = some (out slot)) {validMask : Option (List Bool)}
    (hmask : ∀ mask ∈ validMask, mask.length = topkIds.rows.flatten.length ∧
      ∀ slot : Nat, mask[slot]? = some false → out slot = 0) :
    moe.unpermute kernels intermediate (argsort topkIds.rows.flatten) weights validMask =
      .ok (moe.weightedSums numTokens weights out) := by
  have hrows : weights.rows.length = numTokens := congrArg Prod.fst hweights
  have hcols : weights.cols = moe.numExpertsPerTok := congrArg Prod.snd hweights
  have hlength : (argsort topkIds.rows.flatten).length = numTokens * moe.numExpertsPerTok := by
    rw [length_argsort, h.length_flatten]
  have hslot {b k : Nat} (hb : b < numTokens) (hk : k < moe.numExpertsPerTok) :
      b * moe.numExpertsPerTok + k < numTokens * moe.numExpertsPerTok := by
    have hle := Nat.mul_le_mul_right moe.numExpertsPerTok (show b + 1 ≤ numTokens from hb)
    rw [Nat.succ_mul] at hle
    omega
  have hback {b k : Nat} (hb : b < numTokens) (hk : k < moe.numExpertsPerTok) :=
    getD_positions h hrow (hslot hb hk)
  have hbatch : (positions (argsort topkIds.rows.flatten)).length / moe.numExpertsPerTok =
      numTokens := by
    rw [length_positions, hlength, Nat.mul_div_cancel _ h.topK_pos]
  -- Masked weights make no difference, since their rows are zero.
  have hcombine (ws : List K) (hws : ∀ b < numTokens, ∀ k < moe.numExpertsPerTok,
      ws.getD (b * moe.numExpertsPerTok + k) 0 • out (b * moe.numExpertsPerTok + k) =
        weights.rows.flatten.getD (b * moe.numExpertsPerTok + k) 0 •
          out (b * moe.numExpertsPerTok + k)) :
      ((List.range ((positions (argsort topkIds.rows.flatten)).length /
        moe.numExpertsPerTok)).map fun b => ((List.range moe.numExpertsPerTok).map fun k =>
          ws.getD (b * moe.numExpertsPerTok + k) 0 •
            (intermediate.take (numTokens * moe.numExpertsPerTok) ++
              List.replicate (numTokens * moe.numExpertsPerTok - intermediate.length) 0).getD
                ((positions (argsort topkIds.rows.flatten)).getD
                  (b * moe.numExpertsPerTok + k) 0) 0).sum) =
        moe.weightedSums numTokens weights out := by
    rw [hbatch]
    apply List.map_congr_left
    intro b hb
    congr 1
    apply List.map_congr_left
    intro k hk
    rw [List.mem_range] at hb hk
    rw [hback hb hk, hws b hb k hk]
  unfold unpermute
  dsimp only
  rw [if_neg (not_not_intro hcols), if_neg (by rw [hlength, hrows]; simp), hrows]
  cases validMask with
  | some mask =>
    obtain ⟨hmaskLength, hmaskZero⟩ := hmask mask rfl
    dsimp only
    have hmasked : ∀ b < numTokens, ∀ k < moe.numExpertsPerTok,
        (mask.zipWith (fun valid weight => if valid then weight else 0)
          weights.rows.flatten).getD (b * moe.numExpertsPerTok + k) 0 •
            out (b * moe.numExpertsPerTok + k) =
          weights.rows.flatten.getD (b * moe.numExpertsPerTok + k) 0 •
            out (b * moe.numExpertsPerTok + k) := by
      intro b _ k _
      refine masked_smul ?_ (hmaskZero _)
      rw [hmaskLength, h.length_flatten, length_flatten_of_width weights.length_row, hrows, hcols]
    unfold scCombine
    split
    · exact congrArg Except.ok (hcombine _ hmasked)
    · rw [hk.raggedGatherReduce]
      exact congrArg Except.ok (hcombine _ hmasked)
  | none =>
    dsimp only
    split
    · exact congrArg Except.ok (hcombine _ fun _ _ _ _ => rfl)
    · rw [mapM_eq_ok fun b _ => addContributions_eq fun hnil => ?_]
      · have hplain := hcombine weights.rows.flatten fun _ _ _ _ => rfl
        rw [hbatch] at hplain
        exact congrArg Except.ok hplain
      · have htopK := h.topK_pos
        rw [List.map_eq_nil_iff, List.range_eq_nil] at hnil
        omega

end Unpermute

section Forward

variable [LinearOrder K] {inputs : List moe.Row}

/-- What a shard comes to, before the shards are added up. -/
theorem forward_eq (fns : ActivationFns K) (hk : kernels.Sound)
    (h : moe.Routes inputs.length topkIds)
    (hweights : weights.shape = (inputs.length, moe.numExpertsPerTok))
    (expertShard : Fin moe.epSize) (tensorShard : Fin moe.tpSize) :
    moe.forward fns kernels inputs weights topkIds expertShard tensorShard =
      .ok (moe.weightedSums inputs.length weights fun slot =>
        moe.shardOutput fns expertShard tensorShard (topkIds.rows.flatten.getD slot 0)
          (inputs.getD (slot / moe.numExpertsPerTok) 0)) := by
  simp only [forward, h.permute_eq, ok_bind]
  apply unpermute_eq h hk hweights
  · intro i slot hi
    have hlt : slot < topkIds.rows.flatten.length := mem_argsort.mp (List.mem_of_getElem? hi)
    obtain ⟨expert, hexpert⟩ : ∃ expert, topkIds.rows.flatten[slot]? = some expert :=
      ⟨_, List.getElem?_eq_getElem hlt⟩
    have hget : topkIds.rows.flatten.getD slot 0 = expert := by
      rw [List.getD_eq_getElem?_getD, hexpert, Option.getD_some]
    rw [getElem?_gmmCompute h hk hi hexpert, hget]
  · intro mask hmask
    obtain ⟨info, hinfo, rfl⟩ := Option.map_eq_some_iff.mp hmask
    unfold sparseInfo at hinfo
    rw [Option.ite_none_right_eq_some] at hinfo
    obtain ⟨-, hinfo⟩ := hinfo
    cases hinfo
    refine ⟨List.length_map _, fun slot hslot => ?_⟩
    rw [List.getElem?_map, Option.map_eq_some_iff] at hslot
    obtain ⟨expert, hexpert, hfalse⟩ := hslot
    rw [decide_eq_false_iff_not, moe.dispatch_eq] at hfalse
    rw [List.getD_eq_getElem?_getD, hexpert, Option.getD_some, shardOutput, dif_neg (by omega)]

end Forward

section Psum

theorem sum_map_sum {n : Nat} (ks : List Nat) (f : Fin n → Nat → moe.Row) :
    ∑ s, (ks.map (f s)).sum = (ks.map fun k => ∑ s, f s k).sum := by
  induction ks with
  | nil => simp
  | cons k ks ih => simp only [List.map_cons, List.sum_cons, Finset.sum_add_distrib, ih]

/-- Shards that hold weighted sums add up to the weighted sums of what they hold. -/
theorem psum_weightedSums {n numTokens : Nat} (weights : Mat K) (out : Fin n → Nat → moe.Row) :
    moe.psum numTokens ((List.finRange n).map fun s => moe.weightedSums numTokens weights (out s)) =
      moe.weightedSums numTokens weights fun slot => ∑ s, out s slot := by
  apply List.map_congr_left
  intro b hb
  rw [List.mem_range] at hb
  simp only [Finset.smul_sum, ← sum_map_sum]
  rw [List.map_map, Fin.sum_univ_def]
  congr 1
  apply List.map_congr_left
  intro s _
  rw [Function.comp_apply, List.getD_eq_getElem?_getD, weightedSums, List.getElem?_map,
    List.getElem?_range hb, Option.map_some, Option.getD_some]

end Psum

section Dense

/-- The columns of the shards are those of the whole. -/
theorem sum_vecMul_shards {m n c : Nat} (a : Fin (m * n) → K) (w : Matrix (Fin (m * n)) (Fin c) K) :
    ∑ t : Fin m, Matrix.vecMul (fun j : Fin n => a (finProdFinEquiv (t, j)))
      (w.submatrix (fun j => finProdFinEquiv (t, j)) id) = Matrix.vecMul a w := by
  funext i
  rw [Finset.sum_apply]
  simp only [Matrix.vecMul, dotProduct, Matrix.submatrix_apply, id_eq]
  rw [← Fintype.sum_prod_type' fun t j => a (finProdFinEquiv (t, j)) * w (finProdFinEquiv (t, j)) i]
  exact finProdFinEquiv.sum_comp fun j => a j * w j i

variable [LinearOrder K]

/-- The output of an expert. -/
def expertOutput (moe : EPMoE K) (fns : ActivationFns K) (expert : Nat) (x : moe.Row) : moe.Row :=
  if h : expert < moe.epSize * moe.expertsPerDevice then
    Matrix.vecMul (fun j => moe.activate fns (Matrix.vecMul x (moe.wi0 ⟨expert, h⟩) j)
      (Matrix.vecMul x (moe.wi1 ⟨expert, h⟩) j)) (moe.wo ⟨expert, h⟩)
  else 0

/-- What the layer is for: the weighted sum over the experts of a token. -/
def denseRow (moe : EPMoE K) (fns : ActivationFns K) (x : moe.Row) (experts : List Nat)
    (weights : List K) : moe.Row :=
  ((experts.zip weights).map fun p => p.2 • moe.expertOutput fns p.1 x).sum

/-- The shards of an expert make up its output, and the other shards add nothing. -/
theorem sum_shardOutput (fns : ActivationFns K) {expert : Nat} (h : expert < moe.numExperts)
    (x : moe.Row) : ∑ s : Fin moe.epSize, ∑ t : Fin moe.tpSize, moe.shardOutput fns s t expert x =
      moe.expertOutput fns expert x := by
  obtain ⟨⟨owner, own⟩, hpair⟩ := finProdFinEquiv.surjective (⟨expert, h⟩ :
    Fin (moe.epSize * moe.expertsPerDevice))
  have hval : own + moe.expertsPerDevice * owner = expert := congrArg Fin.val hpair
  have hdiv (s : Fin moe.epSize) (hs : expert - s * moe.expertsPerDevice < moe.expertsPerDevice ∧
      s * moe.expertsPerDevice ≤ expert) : s = owner := by
    have hs' : expert / moe.expertsPerDevice = s :=
      Nat.div_eq_of_lt_le hs.2 (by rw [Nat.succ_mul]; omega)
    have howner : expert / moe.expertsPerDevice = owner := by
      rw [← hval, Nat.add_mul_div_left _ _ (Nat.zero_lt_of_lt own.isLt),
        Nat.div_eq_of_lt own.isLt, Nat.zero_add]
    exact Fin.ext (hs'.symm.trans howner)
  have hother : ∀ s, s ≠ owner → ∑ t : Fin moe.tpSize, moe.shardOutput fns s t expert x = 0 := by
    intro s hs
    exact Finset.sum_eq_zero fun t _ => dif_neg fun hlocal => hs (hdiv s hlocal)
  rw [Fintype.sum_eq_single owner hother]
  have hcomm := Nat.mul_comm moe.expertsPerDevice owner
  have hlocal : expert - owner * moe.expertsPerDevice < moe.expertsPerDevice ∧
      owner * moe.expertsPerDevice ≤ expert := by
    have := own.isLt
    omega
  have hown : (⟨_, hlocal.1⟩ : Fin moe.expertsPerDevice) = own := by
    apply Fin.ext
    show expert - owner * moe.expertsPerDevice = own
    omega
  have hpart (t : Fin moe.tpSize) : moe.shardOutput fns owner t expert x =
      Matrix.vecMul (fun j => moe.activate fns
        (Matrix.vecMul x (moe.wi0 ⟨expert, h⟩) (finProdFinEquiv (t, j)))
        (Matrix.vecMul x (moe.wi1 ⟨expert, h⟩) (finProdFinEquiv (t, j))))
        ((moe.wo ⟨expert, h⟩).submatrix (fun j => finProdFinEquiv (t, j)) id) := by
    rw [shardOutput, dif_pos hlocal, hown, ← hpair]
    rfl
  unfold expertOutput
  rw [dif_pos (show expert < moe.epSize * moe.expertsPerDevice from h)]
  simp only [hpart]
  exact sum_vecMul_shards (fun j => moe.activate fns (Matrix.vecMul x (moe.wi0 ⟨expert, h⟩) j)
    (Matrix.vecMul x (moe.wi1 ⟨expert, h⟩) j)) (moe.wo ⟨expert, h⟩)

/-- A token's sum over its experts, when its places hold what the experts give. -/
theorem weightedSums_dense (fns : ActivationFns K) {inputs : List moe.Row}
    (h : moe.Routes inputs.length topkIds)
    (hweights : weights.shape = (inputs.length, moe.numExpertsPerTok)) {out : Nat → moe.Row}
    (hout : ∀ slot expert : Nat, topkIds.rows.flatten[slot]? = some expert →
      out slot = moe.expertOutput fns expert (inputs.getD (slot / moe.numExpertsPerTok) 0)) :
    moe.weightedSums inputs.length weights out =
      (inputs.zip (topkIds.rows.zip weights.rows)).map fun p =>
        moe.denseRow fns p.1 p.2.1 p.2.2 := by
  have hwRows : weights.rows.length = inputs.length := congrArg Prod.fst hweights
  have hwCols : weights.cols = moe.numExpertsPerTok := congrArg Prod.snd hweights
  have hwRow : ∀ row ∈ weights.rows, row.length = moe.numExpertsPerTok :=
    fun row hrow => (weights.length_row row hrow).trans hwCols
  have hlength := h.rows_length
  apply List.ext_getElem (by simp [weightedSums, hlength, hwRows])
  intro b hb hb'
  have hbIn : b < inputs.length := by simpa [weightedSums] using hb
  have hbIds : b < topkIds.rows.length := hlength ▸ hbIn
  have hbWs : b < weights.rows.length := hwRows ▸ hbIn
  have hids := h.row_length (List.getElem_mem hbIds)
  have hws := hwRow _ (List.getElem_mem hbWs)
  simp only [weightedSums, denseRow, List.getElem_map, List.getElem_range, List.getElem_zip]
  congr 1
  apply List.ext_getElem (by simp [hids, hws])
  intro k hk _
  rw [List.length_map, List.length_range] at hk
  have hslot := (getElem?_flatten_of_width (fun row hrow => h.row_length hrow)
    (List.getElem?_eq_getElem hbIds) hk).trans
      (List.getElem?_eq_getElem (lt_of_lt_of_eq hk hids.symm))
  have hweight := (getElem?_flatten_of_width hwRow (List.getElem?_eq_getElem hbWs) hk).trans
    (List.getElem?_eq_getElem (lt_of_lt_of_eq hk hws.symm))
  have hdiv : (b * moe.numExpertsPerTok + k) / moe.numExpertsPerTok = b := by
    rw [Nat.mul_comm, Nat.mul_add_div h.topK_pos, Nat.div_eq_of_lt hk, Nat.add_zero]
  simp only [List.getElem_map, List.getElem_range, List.getElem_zip]
  rw [hout _ _ hslot, hdiv, List.getD_eq_getElem?_getD, hweight, Option.getD_some,
    List.getD_eq_getElem?_getD, List.getElem?_eq_getElem hbIn, Option.getD_some]

/-- The layer gives every token the weighted sum over its experts, on every mesh and with every
way to gather and to combine the rows. -/
theorem call_eq_dense (fns : ActivationFns K) (hk : kernels.Sound) {inputs : List moe.Row}
    (h : moe.Routes inputs.length topkIds)
    (hweights : weights.shape = (inputs.length, moe.numExpertsPerTok)) :
    moe.call fns kernels inputs weights topkIds =
      .ok ((inputs.zip (topkIds.rows.zip weights.rows)).map fun p =>
        moe.denseRow fns p.1 p.2.1 p.2.2) := by
  unfold call
  rw [mapM_eq_ok (g := fun expertShard => moe.weightedSums inputs.length weights fun slot =>
    ∑ t, moe.shardOutput fns expertShard t (topkIds.rows.flatten.getD slot 0)
      (inputs.getD (slot / moe.numExpertsPerTok) 0)), ok_bind, psum_weightedSums]
  · refine congrArg Except.ok (weightedSums_dense fns h hweights fun slot expert hexpert => ?_)
    rw [List.getD_eq_getElem?_getD, hexpert, Option.getD_some]
    exact sum_shardOutput fns (h.lt_flatten hexpert) _
  · intro expertShard _
    rw [mapM_eq_ok fun t _ => forward_eq fns hk h hweights expertShard t, ok_bind,
      psum_weightedSums]
    rfl

theorem fourExperts_dense :
    (fourExperts.call ⟨fun z => max z 0, id, id⟩ (referenceKernels Int 3) [![2], ![3]]
      (twoByTwo 1 2 3 4) (twoByTwo 3 0 1 2)).map (List.map fun row => row (0 : Fin 1)) =
        .ok [60, 279] := by
  rw [call_eq_dense _ (referenceKernels_sound 3) ⟨rfl, by decide, by decide⟩ rfl]
  decide

end Dense

end EPMoE

end SglJax.Layers
