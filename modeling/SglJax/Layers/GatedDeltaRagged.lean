import SglJax.Layers.GatedDeltaChunk

/-! The gated delta rule over a batch of sequences. Token by token or chunk by chunk, a batch
gives each of its sequences what the sequence would get by itself. -/
namespace SglJax.Layers

open Foundation

section Scan

variable {σ α γ : Type}

/-- What every step of a scan keeps holds at its end, and each entry is put out from a state
that it holds of. -/
theorem scan_spec {motive : Nat → σ → Prop} (f : σ → α → σ × γ) (xs : List α) (init : σ)
    (start : motive 0 init)
    (next : ∀ (i : Nat) x s, xs[i]? = some x → motive i s → motive (i + 1) (f s x).1) :
    motive xs.length (scan f init xs).1 ∧ ∀ (i : Nat) x, xs[i]? = some x →
      ∃ s, motive i s ∧ (scan f init xs).2[i]? = some (f s x).2 := by
  induction xs generalizing init motive with
  | nil =>
    refine ⟨start, fun i x hx => ?_⟩
    simp at hx
  | cons x xs ih =>
    obtain ⟨hend, houts⟩ := ih (motive := fun i => motive (i + 1)) _ (next 0 x init rfl start)
      fun i y s hy => next (i + 1) y s (by simpa using hy)
    refine ⟨hend, fun i y hy => ?_⟩
    cases i with
    | zero =>
      cases hy
      exact ⟨init, start, rfl⟩
    | succ i =>
      rw [List.getElem?_cons_succ] at hy
      exact houts i y hy

theorem length_scan (f : σ → α → σ × γ) (init : σ) (xs : List α) :
    (scan f init xs).2.length = xs.length := by
  induction xs generalizing init with
  | nil => rfl
  | cons x xs ih =>
    show (scan f (f init x).1 xs).2.length + 1 = xs.length + 1
    rw [ih]

end Scan

variable {K : Type} [Field K] {dK dV : Nat} {fns : ScalarFns K}

section Streams

variable (y : Nat → HeadToken dK dV K) (init : Matrix (Fin dK) (Fin dV) K)

/-- A stream goes on from its state. -/
theorem stateAfter_add (a b : Nat) : stateAfter fns y init (a + b) =
    stateAfter fns (fun s => y (a + s)) (stateAfter fns y init a) b := by
  induction b with
  | zero => rfl
  | succ b ih =>
    show (gatedDeltaStep fns (stateAfter fns y init (a + b)) (y (a + b))).1 = _
    rw [ih]
    rfl

theorem outputAt_add (a b : Nat) : outputAt fns y init (a + b) =
    outputAt fns (fun s => y (a + s)) (stateAfter fns y init a) b := by
  unfold outputAt
  rw [stateAfter_add]

/-- Padding leaves the state as it is. -/
theorem gatedDeltaStep_zero (h : fns.ExpLaws) (state : Matrix (Fin dK) (Fin dV) K) :
    (gatedDeltaStep fns state 0).1 = state := by
  show fns.exp 0 • state + Matrix.vecMulVec (0 : Fin dK → K) _ = state
  rw [h.exp_zero, one_smul, Matrix.zero_vecMulVec, add_zero]

theorem stateAfter_idle (h : fns.ExpLaws) {a b : Nat} (hab : a ≤ b)
    (hzero : ∀ s, a ≤ s → y s = 0) : stateAfter fns y init b = stateAfter fns y init a := by
  induction b, hab using Nat.le_induction with
  | base => rfl
  | succ b hb ih =>
    rw [← ih]
    show (gatedDeltaStep fns (stateAfter fns y init b) (y b)).1 = _
    rw [hzero b hb, gatedDeltaStep_zero h]

theorem stateAfter_congr {y y' : Nat → HeadToken dK dV K} {n : Nat}
    (hy : ∀ s < n, y s = y' s) : stateAfter fns y init n = stateAfter fns y' init n := by
  induction n with
  | zero => rfl
  | succ n ih =>
    show (gatedDeltaStep fns (stateAfter fns y init n) (y n)).1 = _
    rw [ih fun s hs => hy s (Nat.lt_succ_of_lt hs), hy n (Nat.lt_succ_self n)]
    rfl

end Streams

variable {shape : GdnShape}

/-- What the heads of a layer make of a token. -/
abbrev GdnHeads (shape : GdnShape) (K : Type) := Fin shape.nV → HeadToken shape.dK shape.dV K

section Sequences

variable (xs : List (GdnHeads shape K)) (cu : List Nat) (init : List (GdnState shape K))

/-- The tokens of a sequence, and zeros behind them. -/
def seqTokens (i : Nat) (h : Fin shape.nV) (s : Nat) : HeadToken shape.dK shape.dV K :=
  if s < cu.getD (i + 1) 0 - cu.getD i 0 then xs.getD (cu.getD i 0 + s) 0 h else 0

/-- The state of a sequence by itself. -/
def seqState (fns : ScalarFns K) (i r : Nat) : GdnState shape K := fun h =>
  stateAfter fns (seqTokens xs cu i h) (init.getD i 0 h) r

def seqOut (fns : ScalarFns K) (i r : Nat) : GdnOut shape K := fun h =>
  outputAt fns (seqTokens xs cu i h) (init.getD i 0 h) r

/-- The states of all sequences, each after its own number of tokens. -/
def seqStates (fns : ScalarFns K) (b : Nat) (count : Nat → Nat) : List (GdnState shape K) :=
  (List.range b).map fun i => seqState xs cu init fns i (count i)

variable {xs cu init}

theorem seqState_idle (h : fns.ExpLaws) {i r r' : Nat}
    (hr : cu.getD (i + 1) 0 - cu.getD i 0 ≤ r) (hrr : r ≤ r') :
    seqState xs cu init fns i r' = seqState xs cu init fns i r := by
  funext head
  apply stateAfter_idle _ _ h hrr
  intro s hs
  exact if_neg (not_lt.mpr (hr.trans hs))

theorem getD_seqStates {b i : Nat} (hi : i < b) (count : Nat → Nat) :
    (seqStates xs cu init fns b count).getD i 0 = seqState xs cu init fns i (count i) := by
  rw [seqStates, List.getD_eq_getElem?_getD, List.getElem?_map, List.getElem?_range hi]
  rfl

/-- One sequence goes on, and the others stay. -/
theorem set_seqStates {b i : Nat} {count count' : Nat → Nat} {new : GdnState shape K}
    (hi : i < b) (hnew : new = seqState xs cu init fns i (count' i))
    (hothers : ∀ j < b, j ≠ i →
      seqState xs cu init fns j (count' j) = seqState xs cu init fns j (count j)) :
    (seqStates xs cu init fns b count).set i new = seqStates xs cu init fns b count' := by
  apply List.ext_getElem?
  intro j
  unfold seqStates
  by_cases hji : j = i
  · subst hji
    rw [List.getElem?_set_self (by simpa using hi), List.getElem?_map, List.getElem?_range hi, hnew]
    rfl
  · rw [List.getElem?_set_ne (Ne.symm hji), List.getElem?_map, List.getElem?_map]
    by_cases hj : j < b
    · rw [List.getElem?_range hj, Option.map_some, Option.map_some, hothers j hj hji]
    · rw [List.getElem?_eq_none (by simpa using hj)]
      rfl

theorem seqStates_congr {b : Nat} {count count' : Nat → Nat}
    (h : ∀ i < b, seqState xs cu init fns i (count i) = seqState xs cu init fns i (count' i)) :
    seqStates xs cu init fns b count = seqStates xs cu init fns b count' := by
  apply List.map_congr_left
  intro i hi
  exact h i (List.mem_range.mp hi)

theorem seqStates_zero {b : Nat} (hinit : init.length = b) :
    seqStates xs cu init fns b (fun _ => 0) = init := by
  apply List.ext_getElem?
  intro j
  rw [seqStates, List.getElem?_map]
  by_cases hj : j < b
  · rw [List.getElem?_range hj, List.getElem?_eq_getElem (hinit ▸ hj), Option.map_some]
    congr 1
    funext h
    show init.getD j 0 h = _
    rw [List.getD_eq_getElem _ _ (hinit ▸ hj)]
  · rw [List.getElem?_eq_none (by simpa using hj), List.getElem?_eq_none (by omega)]
    rfl

end Sequences

section Reference

variable {cu : List Nat} {b : Nat} {init : List (GdnState shape K)} {xs : List (GdnHeads shape K)}
  (h : Offsets cu b)
include h

/-- Tokens one after the other. -/
theorem raggedStep_spec (hlaws : fns.ExpLaws) {t : Nat} {x : GdnHeads shape K}
    (hx : xs[t]? = some x) :
    let token : RaggedToken shape K :=
      ⟨x, min (searchsortedRight cu.tail t) (b - 1), t < cu.getD b 0⟩
    (raggedStep fns (seqStates xs cu init fns b fun i => t - cu.getD i 0) token).1 =
        seqStates xs cu init fns b (fun i => t + 1 - cu.getD i 0) ∧
      ∀ i < b, cu.getD i 0 ≤ t → t < cu.getD (i + 1) 0 →
        (raggedStep fns (seqStates xs cu init fns b fun i => t - cu.getD i 0) token).2 =
          seqOut xs cu init fns i (t - cu.getD i 0) := by
  intro token
  have hown {i : Nat} (hi : i < b) (hle : cu.getD i 0 ≤ t) (hlt : t < cu.getD (i + 1) 0)
      (head : Fin shape.nV) : seqTokens xs cu i head (t - cu.getD i 0) = x head := by
    rw [seqTokens, if_pos (by omega), Nat.add_sub_cancel' hle, List.getD_eq_getElem?_getD, hx,
      Option.getD_some]
  have hidx {i : Nat} (hi : i < b) (hle : cu.getD i 0 ≤ t) (hlt : t < cu.getD (i + 1) 0) :
      token.reqIdx = i := by
    show min (searchsortedRight cu.tail t) (b - 1) = i
    rw [h.searchsortedRight_eq hi hle hlt]
    omega
  constructor
  · unfold raggedStep
    by_cases hvalid : t < cu.getD b 0
    · obtain ⟨i, hi, hle, hlt⟩ := h.exists_segment hvalid
      rw [hidx hi hle hlt, getD_seqStates hi]
      simp only [token, hvalid, decide_true, if_true]
      apply set_seqStates hi
      · funext head
        rw [Nat.sub_add_comm hle]
        show (gatedDeltaStep fns _ (x head)).1 = (gatedDeltaStep fns _ (seqTokens xs cu i head _)).1
        rw [hown hi hle hlt]
        rfl
      · intro j hj hji
        rcases h.others hi hle hlt hj hji with heq | hidle
        · rw [heq]
        · exact seqState_idle hlaws hidle (by omega)
    · simp only [token, hvalid, decide_false]
      apply seqStates_congr
      intro i hi
      have hend := h.mono (show i + 1 ≤ b from hi) le_rfl
      exact (seqState_idle hlaws (by omega) (by omega)).symm
  · intro i hi hle hlt
    unfold raggedStep
    rw [hidx hi hle hlt, getD_seqStates hi]
    funext head
    show (gatedDeltaStep fns _ (x head)).2 = (gatedDeltaStep fns _ (seqTokens xs cu i head _)).2
    rw [hown hi hle hlt]
    rfl

variable {weights : GdnWeights shape K} {tokens : List (GdnToken shape K)}

theorem getElem?_raggedTokens {t : Nat} {x : RaggedToken shape K}
    (hx : (raggedTokens fns weights tokens cu b)[t]? = some x) :
    ∃ heads, (tokens.map (headToken fns weights))[t]? = some heads ∧
      x = ⟨heads, min (searchsortedRight cu.tail t) (b - 1), t < cu.getD b 0⟩ := by
  rw [raggedTokens, List.getElem?_map, List.getElem?_zipIdx, Option.map_map,
    Option.map_eq_some_iff] at hx
  obtain ⟨token, htoken, rfl⟩ := hx
  refine ⟨headToken fns weights token, by rw [List.getElem?_map, htoken]; rfl, ?_⟩
  simp only [Function.comp_apply, Nat.zero_add, h.getLastD]

/-- Token by token, every sequence of a batch is what it would be by itself. -/
theorem raggedScan_spec (hlaws : fns.ExpLaws) (hinit : init.length = b)
    (htokens : cu.getD b 0 ≤ tokens.length) :
    let xs := tokens.map (headToken fns weights)
    let result := scan (raggedStep fns) init (raggedTokens fns weights tokens cu b)
    result.1 = seqStates xs cu init fns b (fun i => cu.getD (i + 1) 0 - cu.getD i 0) ∧
      ∀ i < b, ∀ t : Nat, cu.getD i 0 ≤ t → t < cu.getD (i + 1) 0 →
        result.2[t]? = some (seqOut xs cu init fns i (t - cu.getD i 0)) := by
  intro xs result
  have hlength : (raggedTokens fns weights tokens cu b).length = tokens.length := by
    simp [raggedTokens]
  obtain ⟨hend, houts⟩ := scan_spec
    (motive := fun t buf => buf = seqStates xs cu init fns b fun i => t - cu.getD i 0)
    (raggedStep fns) (raggedTokens fns weights tokens cu b) init
    (by simp only [Nat.zero_sub]; exact (seqStates_zero hinit).symm)
    (by
      rintro t x buf hx rfl
      obtain ⟨heads, hheads, rfl⟩ := getElem?_raggedTokens h hx
      exact (raggedStep_spec h hlaws hheads).1)
  constructor
  · rw [hend, hlength]
    apply seqStates_congr
    intro i hi
    have := h.mono (show i + 1 ≤ b from hi) le_rfl
    exact seqState_idle hlaws le_rfl (by omega)
  · intro i hi t hle hlt
    have ht : t < (raggedTokens fns weights tokens cu b).length := by
      have := h.mono (show i + 1 ≤ b from hi) le_rfl
      omega
    obtain ⟨buf, rfl, hout⟩ := houts t _ (List.getElem?_eq_getElem ht)
    obtain ⟨heads, hheads, heq⟩ := getElem?_raggedTokens h (List.getElem?_eq_getElem ht)
    rw [hout, heq, (raggedStep_spec h hlaws hheads).2 i hi hle hlt]

end Reference

end SglJax.Layers
