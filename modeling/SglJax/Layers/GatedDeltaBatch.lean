import SglJax.Layers.GatedDeltaRagged

/-! The chunks of a batch against its tokens. In the aligned layout every sequence begins with a
chunk, and chunk by chunk a sequence is what it would be by itself. -/
namespace SglJax.Layers

open Foundation

section Gather

/-- The only choice that a loop finds. -/
theorem foldl_select {p : Nat → Prop} [DecidablePred p] {v : Nat → Nat} {b i init : Nat}
    (hi : i < b) (hp : p i) (hothers : ∀ j < b, j ≠ i → ¬ p j) :
    (List.range b).foldl (fun idx j => if p j then v j else idx) init = v i := by
  induction b with
  | zero => omega
  | succ b ih =>
    rw [List.range_succ, List.foldl_append, List.foldl_cons, List.foldl_nil]
    by_cases hib : i = b
    · subst hib
      rw [if_pos hp]
    · rw [if_neg (hothers b (Nat.lt_succ_self b) (Ne.symm hib))]
      exact ih (by omega) fun j hj => hothers j (Nat.lt_succ_of_lt hj)

theorem foldl_select_none {p : Nat → Prop} [DecidablePred p] {v : Nat → Nat} {b init : Nat}
    (hnone : ∀ j < b, ¬ p j) :
    (List.range b).foldl (fun idx j => if p j then v j else idx) init = init := by
  induction b with
  | zero => rfl
  | succ b ih =>
    rw [List.range_succ, List.foldl_append, List.foldl_cons, List.foldl_nil,
      if_neg (hnone b (Nat.lt_succ_self b))]
    exact ih fun j hj => hnone j (Nat.lt_succ_of_lt hj)

variable {toCu fromCu lens : List Nat} {b : Nat} (h : Offsets toCu b)
  (hlens : ∀ i < b, toCu.getD i 0 + lens.getD i 0 ≤ toCu.getD (i + 1) 0)
include h hlens

/-- A place of a sequence comes from the same place of the sequence. -/
theorem buildGather_own {i j init : Nat} (hi : i < b) (hle : toCu.getD i 0 ≤ j)
    (hlt : j < toCu.getD i 0 + lens.getD i 0) :
    buildGather fromCu toCu lens b init j = fromCu.getD i 0 + (j - toCu.getD i 0) := by
  apply foldl_select hi ⟨hle, hlt⟩
  intro k hk hki
  have hown := hlens i hi
  have hother := hlens k hk
  rcases Nat.lt_or_gt_of_ne hki with hlt' | hgt
  · have := h.mono (show k + 1 ≤ i from hlt') hi.le
    omega
  · have := h.mono (show i + 1 ≤ k from hgt) hk.le
    omega

/-- A place behind the tokens of its sequence comes from nowhere. -/
theorem buildGather_padding {i j init : Nat} (hi : i < b)
    (hle : toCu.getD i 0 + lens.getD i 0 ≤ j) (hlt : j < toCu.getD (i + 1) 0 ∨ i + 1 = b) :
    buildGather fromCu toCu lens b init j = init := by
  apply foldl_select_none
  intro k hk
  have hother := hlens k hk
  rcases Nat.lt_trichotomy k i with hlt' | rfl | hgt
  · have := h.mono (show k + 1 ≤ i from hlt') hi.le
    omega
  · omega
  · have := h.mono (show i + 1 ≤ k from hgt) hk.le
    omega

end Gather

section Padded

theorem le_paddedLen {align : Nat} (halign : 0 < align) (len : Nat) :
    len ≤ (len + align - 1) / align * align ∧
    (len + align - 1) / align * align ≤ len + (align - 1) := by
  have hdiv := Nat.div_add_mod (len + align - 1) align
  have hmod := Nat.mod_lt (len + align - 1) halign
  rw [Nat.mul_comm] at hdiv
  omega

variable {cu : List Nat} {b align : Nat} (h : Offsets cu b)
include h

theorem getD_segLens {i : Nat} (hi : i < b) :
    (cu.tail.zipWith (· - ·) cu).getD i 0 = cu.getD (i + 1) 0 - cu.getD i 0 := by
  have hlt : i + 1 < cu.length := by
    rw [h.length]
    omega
  rw [List.getD_eq_getElem?_getD, List.getElem?_zipWith, List.getElem?_tail,
    List.getElem?_eq_getElem hlt, List.getElem?_eq_getElem (Nat.lt_of_succ_lt hlt),
    List.getD_eq_getElem _ _ hlt, List.getD_eq_getElem _ _ (Nat.lt_of_succ_lt hlt)]
  rfl

theorem length_segLens : (cu.tail.zipWith (· - ·) cu).length = b := by
  rw [List.length_zipWith, List.length_tail, h.length]
  omega

theorem length_paddedLens : (paddedLens cu align).length = b := by
  rw [paddedLens, List.length_map, length_segLens h]

theorem paddedCu_offsets (align : Nat) : Offsets (paddedCu cu align) b := by
  have hoffsets := offsets_cumsum (paddedLens cu align)
  rwa [length_paddedLens h] at hoffsets

/-- A sequence's length, filled up to whole chunks. -/
theorem paddedCu_succ {i : Nat} (hi : i < b) : (paddedCu cu align).getD (i + 1) 0 =
    (paddedCu cu align).getD i 0 +
      (cu.getD (i + 1) 0 - cu.getD i 0 + align - 1) / align * align := by
  have hlength : (paddedLens cu align).length = b := length_paddedLens h
  have hget : (paddedLens cu align)[i]? =
      some ((cu.getD (i + 1) 0 - cu.getD i 0 + align - 1) / align * align) := by
    have hlt : i < (cu.tail.zipWith (· - ·) cu).length := by rwa [length_segLens h]
    rw [paddedLens, List.getElem?_map, List.getElem?_eq_getElem hlt, Option.map_some,
      ← List.getD_eq_getElem _ 0 hlt, getD_segLens h hi]
  rw [paddedCu, getD_offsets (by omega), getD_offsets (by omega), List.take_add_one, hget,
    List.sum_append]
  simp

theorem dvd_paddedCu {i : Nat} (hi : i ≤ b) : align ∣ (paddedCu cu align).getD i 0 := by
  induction i with
  | zero => exact Dvd.intro 0 rfl
  | succ i ih =>
    rw [paddedCu_succ h hi]
    exact Nat.dvd_add (ih (Nat.le_of_succ_le hi)) (Nat.dvd_mul_left _ _)

variable (halign : 0 < align)
include halign

theorem paddedCu_lens {i : Nat} (hi : i < b) : (paddedCu cu align).getD i 0 +
    (cu.tail.zipWith (· - ·) cu).getD i 0 ≤ (paddedCu cu align).getD (i + 1) 0 := by
  rw [getD_segLens h hi, paddedCu_succ h hi]
  have := (le_paddedLen halign (cu.getD (i + 1) 0 - cu.getD i 0)).1
  omega

theorem paddedCu_le {i : Nat} (hi : i ≤ b) :
    (paddedCu cu align).getD i 0 ≤ cu.getD i 0 + i * (align - 1) := by
  induction i with
  | zero => exact Nat.zero_le _
  | succ i ih =>
    have hprev := ih (Nat.le_of_succ_le hi)
    have hmono := h.mono (show i ≤ i + 1 from Nat.le_succ i) hi
    have hlen := (le_paddedLen halign (cu.getD (i + 1) 0 - cu.getD i 0)).2
    rw [paddedCu_succ h hi, Nat.succ_mul]
    omega

theorem paddedCu_le_alignedSize {tOld : Nat} (hold : cu.getD b 0 ≤ tOld) :
    (paddedCu cu align).getD b 0 ≤ alignedSize tOld b align := by
  have hle := paddedCu_le h halign le_rfl
  have hsize := (le_paddedLen halign (tOld + b * (align - 1))).1
  unfold alignedSize
  omega

end Padded

variable {K : Type} [Field K] {fns : ScalarFns K} {shape : GdnShape} {cu : List Nat} {b : Nat}
  {xs : List (GdnHeads shape K)} {init : List (GdnState shape K)}

section Aligned

variable {align : Nat} (h : Offsets cu b) (halign : 0 < align) (hxs : cu.getD b 0 ≤ xs.length)
include h halign hxs

/-- What stands in the aligned layout: a sequence's tokens, and zeros behind them. -/
theorem getD_aligned {i j : Nat} (hi : i < b) (hle : (paddedCu cu align).getD i 0 ≤ j)
    (hlt : j < (paddedCu cu align).getD (i + 1) 0 ∨ i + 1 = b) (head : Fin shape.nV) :
    (alignSeqsGdn xs cu align).getD j 0 head =
      seqTokens xs cu i head (j - (paddedCu cu align).getD i 0) := by
  have hb : cu.length - 1 = b := by rw [h.length, Nat.add_sub_cancel]
  have hpadded := paddedCu_offsets h align
  have hlens := fun k hk => paddedCu_lens h halign (i := k) hk
  have hsize := paddedCu_le_alignedSize h halign hxs
  have hstay := h.mono (show i + 1 ≤ b from hi) le_rfl
  unfold alignSeqsGdn seqTokens
  dsimp only
  rw [hb, List.getD_eq_getElem?_getD, List.getElem?_map]
  by_cases hown : j - (paddedCu cu align).getD i 0 < cu.getD (i + 1) 0 - cu.getD i 0
  · have hseg := getD_segLens h hi
    have hnext := hlens i hi
    have hend := hpadded.mono (show i + 1 ≤ b from hi) le_rfl
    have hj : j < alignedSize xs.length b align := by omega
    rw [List.getElem?_range hj, Option.map_some, Option.getD_some,
      buildGather_own hpadded hlens hi hle (by omega), if_pos hown, if_pos (by omega)]
  · rw [if_neg hown]
    by_cases hj : j < alignedSize xs.length b align
    · have hseg := getD_segLens h hi
      rw [List.getElem?_range hj, Option.map_some, Option.getD_some,
        buildGather_padding hpadded hlens hi (by omega) hlt, if_neg (Nat.lt_irrefl _)]
      rfl
    · rw [List.getElem?_eq_none (by simpa using hj)]
      rfl

end Aligned

section Owner

/-- The sequence of a chunk: it begins with the chunk or before it, and the chunk is inside of it
or behind all sequences. -/
theorem owner_spec {pc : List Nat} (h : Offsets pc b) (hb : 0 < b) (j : Nat) :
    min (searchsortedRight pc.tail j) (b - 1) < b ∧
      pc.getD (min (searchsortedRight pc.tail j) (b - 1)) 0 ≤ j ∧
      (j < pc.getD (min (searchsortedRight pc.tail j) (b - 1) + 1) 0 ∨
        min (searchsortedRight pc.tail j) (b - 1) + 1 = b) := by
  rcases Nat.lt_or_ge j (pc.getD b 0) with hlt | hge
  · obtain ⟨i, hi, hle, hlt'⟩ := h.exists_segment hlt
    have hmin : min i (b - 1) = i := by omega
    rw [h.searchsortedRight_eq hi hle hlt', hmin]
    exact ⟨hi, hle, .inl hlt'⟩
  · have hmin : min b (b - 1) = b - 1 := by omega
    have hmono := h.mono (show b - 1 ≤ b by omega) le_rfl
    rw [h.searchsortedRight_of_le hge, hmin]
    exact ⟨by omega, by omega, .inr (by omega)⟩

/-- A chunk that begins inside a sequence's places ends there. -/
theorem chunk_inside {c bt stop : Nat} (hdvd : bt ∣ stop) (hlt : c * bt < stop) :
    (c + 1) * bt ≤ stop := by
  obtain ⟨q, rfl⟩ := hdvd
  rw [Nat.mul_comm bt q] at hlt ⊢
  exact Nat.mul_le_mul_right bt (Nat.lt_of_mul_lt_mul_right hlt)

end Owner

section Congr

variable {dK dV : Nat}

theorem outputAt_congr {y y' : Nat → HeadToken dK dV K} {init : Matrix (Fin dK) (Fin dV) K}
    {n : Nat} (hy : ∀ s ≤ n, y s = y' s) : outputAt fns y init n = outputAt fns y' init n := by
  unfold outputAt
  rw [stateAfter_congr _ fun s hs => hy s (Nat.le_of_lt hs), hy n le_rfl]

end Congr

section Rows

/-- The output rows of the chunks stand one after the other. -/
theorem getD_chunkRows {bt c r : Nat} {chunks : List (Chunk shape bt K)}
    {runs : List (ChunkRun shape bt K)} {chunk : Chunk shape bt K} {run : ChunkRun shape bt K}
    (hchunk : chunks[c]? = some chunk) (hrun : runs[c]? = some run) (hr : r < bt) :
    (chunkRows chunks runs).getD (c * bt + r) 0 =
      fun head => chunkGdnOutputFwd chunk run head ⟨r, hr⟩ := by
  have hwidth : ∀ row ∈ (chunks.zip runs).map (fun p => (List.finRange bt).map
      fun r (head : Fin shape.nV) => chunkGdnOutputFwd p.1 p.2 head r), row.length = bt := by
    intro row hrow
    obtain ⟨p, -, rfl⟩ := List.mem_map.mp hrow
    simp
  have hzip : (chunks.zip runs)[c]? = some (chunk, run) :=
    List.getElem?_zip_eq_some.mpr ⟨hchunk, hrun⟩
  rw [List.getD_eq_getElem?_getD, chunkRows, List.flatMap_def,
    getElem?_flatten_of_width hwidth (by rw [List.getElem?_map, hzip, Option.map_some]) hr]
  simp [hr]

end Rows

variable [LinearOrder K] {numBlocks : Nat}

/-- The tokens of a chunk in one head. -/
def chunkTokens (aligned : List (GdnHeads shape K)) (bt c : Nat) (head : Fin shape.nV) (r : Nat) :
    HeadToken shape.dK shape.dV K :=
  aligned.getD (c * bt + r) 0 head

/-- The chunk with a number. -/
def chunkAt (fns : ScalarFns K) (numBlocks : Nat) (aligned : List (GdnHeads shape K))
    (pc : List Nat) (b c : Nat) : Chunk shape (numBlocks * solveBlockSize) K :=
  let bt := numBlocks * solveBlockSize
  let seqId := min (searchsortedRight pc.tail (c * bt)) (b - 1)
  { heads := fun head => chunkOf fns numBlocks (chunkTokens aligned bt c head)
    seqId := seqId
    isFirst := c * bt = pc.getD seqId 0 }

theorem getElem?_chunksOf {aligned : List (GdnHeads shape K)} {pc : List Nat} {c : Nat}
    (hc : c < aligned.length / (numBlocks * solveBlockSize)) :
    (chunksOf fns numBlocks aligned pc b)[c]? = some (chunkAt fns numBlocks aligned pc b c) := by
  rw [chunksOf, List.getElem?_map, List.getElem?_range hc]
  rfl

section Step

variable (h : Offsets cu b) (hb : 0 < b) (hblocks : 0 < numBlocks)
  (hxs : cu.getD b 0 ≤ xs.length) (hlaws : fns.ExpLaws)
include h hb hblocks hxs hlaws

/-- A chunk takes its sequence on, and puts out what its tokens do. -/
theorem chunkStep_spec {c : Nat}
    (hun : ∀ head, Unclamped (chunkTokens (alignSeqsGdn xs cu (numBlocks * solveBlockSize))
      (numBlocks * solveBlockSize) c head) (numBlocks * solveBlockSize)) :
    let bt := numBlocks * solveBlockSize
    let pc := paddedCu cu bt
    let chunk := chunkAt fns numBlocks (alignSeqsGdn xs cu bt) pc b c
    let next := chunkStep fns init (seqStates xs cu init fns b fun i => c * bt - pc.getD i 0) chunk
    next.1 = seqStates xs cu init fns b (fun i => (c + 1) * bt - pc.getD i 0) ∧
      ∀ head r, chunkGdnOutputFwd chunk next.2 head r =
        seqOut xs cu init fns chunk.seqId (c * bt - pc.getD chunk.seqId 0 + r) head := by
  intro bt pc chunk next
  have hbt : 0 < bt := Nat.mul_pos hblocks (by decide)
  have hpc : Offsets pc b := paddedCu_offsets h bt
  obtain ⟨hi, hle, hcase⟩ := owner_spec hpc hb (c * bt)
  have hseq : min (searchsortedRight pc.tail (c * bt)) (b - 1) = chunk.seqId := rfl
  rw [hseq] at hi hle hcase
  have hinside : (c + 1) * bt ≤ pc.getD (chunk.seqId + 1) 0 ∨ chunk.seqId + 1 = b :=
    hcase.imp_left (chunk_inside (dvd_paddedCu h hi))
  have hsucc : (c + 1) * bt = c * bt + bt := Nat.succ_mul c bt
  have htokens (head : Fin shape.nV) : ∀ s < bt, chunkTokens (alignSeqsGdn xs cu bt) bt c head s =
      seqTokens xs cu chunk.seqId head (c * bt - pc.getD chunk.seqId 0 + s) := by
    intro s hs
    rw [← Nat.sub_add_comm hle]
    exact getD_aligned h hbt hxs hi (show pc.getD chunk.seqId 0 ≤ c * bt + s by omega)
      (hinside.imp_left fun hin => show c * bt + s < pc.getD (chunk.seqId + 1) 0 by omega) head
  have hstate : next.2.stateIn =
      seqState xs cu init fns chunk.seqId (c * bt - pc.getD chunk.seqId 0) := by
    show (if chunk.isFirst then init.getD chunk.seqId 0 else (seqStates xs cu init fns b fun i =>
      c * bt - pc.getD i 0).getD chunk.seqId 0) = _
    rw [getD_seqStates hi]
    split
    · next hfirst =>
      have heq : c * bt = pc.getD chunk.seqId 0 := of_decide_eq_true hfirst
      rw [heq, Nat.sub_self]
      rfl
    · rfl
  have hnew (head : Fin shape.nV) : next.2.vNew head =
      deltas fns (chunkTokens (alignSeqsGdn xs cu bt) bt c head) (next.2.stateIn head) bt :=
    chunkOf_vNew _ (hun head) hlaws
  constructor
  · apply set_seqStates hi
    · funext head
      show fns.exp (chunk.heads head).gammaEnd • next.2.stateIn head +
        (chunk.heads head).kG.transpose * next.2.vNew head = _
      rw [hnew]
      refine (chunkOf_state _ (hun head) hlaws).trans ?_
      rw [hstate, hsucc, Nat.sub_add_comm hle]
      show _ = stateAfter fns _ _ _
      rw [stateAfter_add]
      exact stateAfter_congr _ (htokens head)
    · intro j hj hji
      rcases Nat.lt_or_gt_of_ne hji with hlt | hgt
      · have hmono := hpc.mono (show j + 1 ≤ chunk.seqId from hlt) hi.le
        have hlens : pc.getD j 0 + _ ≤ pc.getD (j + 1) 0 := paddedCu_lens h hbt hj
        rw [getD_segLens h hj] at hlens
        exact seqState_idle hlaws (by omega) (by omega)
      · have hstop : (c + 1) * bt ≤ pc.getD j 0 := by
          rcases hinside with hin | hlast
          · exact hin.trans (hpc.mono (show chunk.seqId + 1 ≤ j from hgt) hj.le)
          · omega
        rw [Nat.sub_eq_zero_of_le hstop, Nat.sub_eq_zero_of_le (by omega)]
  · intro head r
    show ((chunk.heads head).qG * next.2.stateIn head +
      (chunk.heads head).aQk * next.2.vNew head : Matrix (Fin bt) (Fin shape.dV) K) r = _
    rw [hnew]
    refine (chunkOf_output _ (hun head) hlaws r).trans ?_
    rw [hstate]
    show _ = outputAt fns _ _ _
    rw [outputAt_add]
    exact outputAt_congr fun s hs => htokens head s (lt_of_le_of_lt hs r.isLt)

end Step

/-- No chunk of a batch decays further than the exponents go. -/
def GentleBatch (xs : List (GdnHeads shape K)) (cu : List Nat) (bt : Nat) : Prop :=
  ∀ c head, Unclamped (chunkTokens (alignSeqsGdn xs cu bt) bt c head) bt

section Run

variable (h : Offsets cu b) (hb : 0 < b) (hblocks : 0 < numBlocks)
  (hxs : cu.getD b 0 ≤ xs.length) (hlaws : fns.ExpLaws)
  (hgentle : GentleBatch xs cu (numBlocks * solveBlockSize))
include h hb hblocks hxs hlaws hgentle

/-- Chunk by chunk, every sequence of a batch is what it would be by itself. -/
theorem chunkedScan_spec (hinit : init.length = b) :
    let bt := numBlocks * solveBlockSize
    let pc := paddedCu cu bt
    let chunks := chunksOf fns numBlocks (alignSeqsGdn xs cu bt) pc b
    let result := scan (chunkStep fns init) init chunks
    result.1 = seqStates xs cu init fns b (fun i => cu.getD (i + 1) 0 - cu.getD i 0) ∧
      ∀ i < b, ∀ r < cu.getD (i + 1) 0 - cu.getD i 0,
        (chunkRows chunks result.2).getD (pc.getD i 0 + r) 0 = seqOut xs cu init fns i r := by
  intro bt pc chunks result
  have hbt : 0 < bt := Nat.mul_pos hblocks (by decide)
  have hpc : Offsets pc b := paddedCu_offsets h bt
  have haligned : (alignSeqsGdn xs cu bt).length = alignedSize xs.length b bt := by
    simp [alignSeqsGdn, h.length]
  have hcount : chunks.length * bt = alignedSize xs.length b bt := by
    show ((List.range _).map _).length * bt = _
    rw [List.length_map, List.length_range, haligned]
    exact Nat.div_mul_cancel (Nat.dvd_mul_left _ _)
  have hstop : pc.getD b 0 ≤ chunks.length * bt := hcount ▸ paddedCu_le_alignedSize h hbt hxs
  have hchunk {c : Nat} (hc : c < chunks.length) :
      chunks[c]? = some (chunkAt fns numBlocks (alignSeqsGdn xs cu bt) pc b c) :=
    getElem?_chunksOf (by simpa [chunks, chunksOf] using hc)
  have hseg {i : Nat} (hi : i < b) :
      pc.getD i 0 + (cu.getD (i + 1) 0 - cu.getD i 0) ≤ pc.getD (i + 1) 0 := by
    have hlens : pc.getD i 0 + _ ≤ pc.getD (i + 1) 0 := paddedCu_lens h hbt hi
    rwa [getD_segLens h hi] at hlens
  obtain ⟨hend, houts⟩ := scan_spec
    (motive := fun c buf => buf = seqStates xs cu init fns b fun i => c * bt - pc.getD i 0)
    (chunkStep fns init) chunks init
    (by simp only [Nat.zero_mul, Nat.zero_sub]; exact (seqStates_zero hinit).symm)
    (by
      rintro c x buf hx rfl
      rw [hchunk (List.getElem?_eq_some_iff.mp hx).1] at hx
      obtain rfl := Option.some.inj hx
      exact (chunkStep_spec h hb hblocks hxs hlaws (hgentle c)).1)
  constructor
  · rw [hend]
    apply seqStates_congr
    intro i hi
    have hlens := hseg hi
    have hmono := hpc.mono (show i + 1 ≤ b from hi) le_rfl
    exact seqState_idle hlaws le_rfl (by omega)
  · intro i hi r hr
    have hlens := hseg hi
    have hmono := hpc.mono (show i + 1 ≤ b from hi) le_rfl
    -- the chunk of the place, and the place in it
    have hplace : (pc.getD i 0 + r) / bt * bt + (pc.getD i 0 + r) % bt = pc.getD i 0 + r := by
      rw [Nat.mul_comm]
      exact Nat.div_add_mod _ _
    have hmod : (pc.getD i 0 + r) % bt < bt := Nat.mod_lt _ hbt
    generalize (pc.getD i 0 + r) / bt = c at hplace
    generalize (pc.getD i 0 + r) % bt = k at hplace hmod
    have hc : c < chunks.length := Nat.lt_of_mul_lt_mul_right (show c * bt < _ by omega)
    have hstart : pc.getD i 0 ≤ c * bt := by
      obtain ⟨q, hq⟩ : bt ∣ pc.getD i 0 := dvd_paddedCu h hi.le
      rw [hq, Nat.mul_comm]
      apply Nat.mul_le_mul_right
      apply Nat.le_of_lt_succ
      apply Nat.lt_of_mul_lt_mul_right
      rw [Nat.succ_mul, Nat.mul_comm q, ← hq]
      omega
    obtain ⟨buf, rfl, hout⟩ := houts c _ (hchunk hc)
    have hseqId : (chunkAt fns numBlocks (alignSeqsGdn xs cu bt) pc b c).seqId = i := by
      show min (searchsortedRight pc.tail (c * bt)) (b - 1) = i
      rw [hpc.searchsortedRight_eq hi hstart (by omega)]
      omega
    rw [← hplace, getD_chunkRows (hchunk hc) hout hmod]
    funext head
    rw [(chunkStep_spec h hb hblocks hxs hlaws (hgentle c)).2 head ⟨k, hmod⟩, hseqId]
    show seqOut xs cu init fns i (c * bt - pc.getD i 0 + k) head = _
    congr 1
    omega

end Run

end SglJax.Layers
