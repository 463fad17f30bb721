import SglJax.Layers.BinarySearch
import SglJax.Foundation.TopK
import Mathlib.Data.Finset.Max
import Mathlib.Data.Fintype.BigOperators

/-! The masks that keep the most likely tokens of each row. Both find a cutoff by the search on
floats; here they are brought back to the entries of the row. -/
namespace SglJax.Layers
open SglJax.Foundation

variable {β : Type} {vocab : Nat}

/-- Number of entries of a row that are larger than `threshold`. -/
def countGt (row : Fin vocab → Binary32) (threshold : Binary32) : Nat :=
  (Finset.univ.filter fun j => Binary32.lt threshold (row j) = true).card

def topkMask (x : β → Fin vocab → Binary32) (k : β → Int) (replaceVal : Binary32) :
    β → Fin vocab → Binary32 :=
  let predicate := fun (threshold : β → Binary32) b =>
    -- the search finds the largest number, the cutoff is the smallest
    decide (k b ≤ countGt (x b) (Binary32.neg (threshold b)))
  let cutoff := fun b => Binary32.neg (float32Bsearch predicate b)
  fun b i => if Binary32.le (cutoff b) (x b i) then x b i else replaceVal

/-- What the masks take from the array library: `softmax` and the sum along a row. -/
structure RowOps (vocab : Nat) where
  softmax : (Fin vocab → Binary32) → Fin vocab → Binary32
  sum : (Fin vocab → Binary32) → Binary32

/-- Probability mass of the chosen entries. -/
def mass (ops : RowOps vocab) (probs : Fin vocab → Binary32) (chosen : Fin vocab → Bool) :
    Binary32 :=
  ops.sum fun j => if chosen j then probs j else Binary32.zero

def toppMask (ops : RowOps vocab) (logits : β → Fin vocab → Binary32) (p : β → Binary32)
    (replaceVal : Binary32) : β → Fin vocab → Binary32 :=
  let probs := fun b => ops.softmax (logits b)
  let predicate := fun (threshold : β → Binary32) b =>
    Binary32.lt (mass ops (probs b) fun j => Binary32.le (threshold b) (probs b j)) (p b)
  let threshold := fun b => float32Bsearch predicate b
  fun b i => if Binary32.le (threshold b) (probs b i) then logits b i else replaceVal

/-! ### Counting what is larger -/

section count

variable {row : Fin vocab → Binary32} {s t : Binary32}

theorem countGt_anti (hrow : ∀ j, Binary32.isNaN (row j) = false)
    (hs : Binary32.isNaN s = false) (ht : Binary32.isNaN t = false)
    (hst : Binary32.place s ≤ Binary32.place t) : countGt row t ≤ countGt row s := by
  unfold countGt
  apply Finset.card_le_card
  intro j hj
  rw [Finset.mem_filter] at hj ⊢
  have hlt := (Binary32.lt_iff ht (hrow j)).mp hj.2
  refine ⟨hj.1, ?_⟩
  rw [Binary32.lt_iff hs (hrow j)]
  omega

theorem monotone_countGt (hrow : ∀ j, Binary32.isNaN (row j) = false) (k : Int) :
    MonotoneFloat fun t => decide (k ≤ countGt row (Binary32.neg t)) := by
  intro s t hs ht hst hk
  have hs' := Binary32.isNaN_of_isFinite hs
  have ht' := Binary32.isNaN_of_isFinite ht
  rw [Binary32.le_iff hs' ht'] at hst
  rw [decide_eq_true_iff] at hk ⊢
  have hanti : countGt row (Binary32.neg s) ≤ countGt row (Binary32.neg t) := by
    apply countGt_anti hrow
    · rw [Binary32.isNaN_neg, ht']
    · rw [Binary32.isNaN_neg, hs']
    · rw [Binary32.place_neg, Binary32.place_neg]
      omega
  omega

end count

/-- An entry is kept when fewer than `k` entries of its row are larger; what is minus infinity
is replaced. -/
theorem topkMask_apply (x : β → Fin vocab → Binary32) (k : β → Int) (replaceVal : Binary32)
    (b : β) (i : Fin vocab) (hx : ∀ j, Binary32.isNaN (x b j) = false) (hk : 1 ≤ k b) :
    topkMask x k replaceVal b i =
      if x b i ≠ Binary32.negInf ∧ (countGt (x b) (x b i) : Int) < k b then x b i
      else replaceVal := by
  have hsearch := float32Bsearch_greatest
    (fun b t => decide (k b ≤ countGt (x b) (Binary32.neg t))) b (monotone_countGt hx (k b))
  have heq : topkMask x k replaceVal b i = if Binary32.le (Binary32.neg (float32Bsearch
      (fun t b => decide (k b ≤ countGt (x b) (Binary32.neg (t b)))) b)) (x b i) = true then x b i
      else replaceVal := rfl
  rw [heq]
  generalize float32Bsearch _ b = r at hsearch ⊢
  have hxi := hx i
  have hbounds := Binary32.place_bounds hxi
  have hfinite := Binary32.isFinite_iff_place (x b i)
  -- nothing is larger than plus infinity
  have htop : Binary32.place (x b i) = 255 * 2 ^ 23 → countGt (x b) (x b i) = 0 := by
    intro hinf
    unfold countGt
    rw [Finset.card_eq_zero, Finset.filter_eq_empty_iff]
    intro j _
    rw [Binary32.lt_iff hxi (hx j), hinf]
    have := (Binary32.place_bounds (hx j)).2
    omega
  have hinf : x b i = Binary32.negInf ↔ Binary32.place (x b i) = -(255 * 2 ^ 23) := by
    rw [← Binary32.place_negInf]
    exact ⟨fun h => by rw [h], eq_negInf⟩
  apply if_congr _ rfl rfl
  rcases hsearch with ⟨hall, rfl⟩ | ⟨hr, hfalse, hgreatest⟩
  · -- no finite cutoff has fewer than `k` entries above it
    have hneg : Binary32.neg Binary32.negInf = Binary32.posInf := by decide
    rw [hneg, Binary32.le_iff (by decide) hxi, Binary32.place_posInf]
    cases hf : Binary32.isFinite (x b i) with
    | true =>
      have hplace := hfinite.mp hf
      have hcount := hall (Binary32.neg (x b i)) (by rw [Binary32.isFinite_neg, hf])
      rw [Binary32.neg_neg, decide_eq_true_iff] at hcount
      constructor
      · intro h; omega
      · intro h; omega
    | false =>
      rw [hf] at hfinite
      have hends : ¬ (-(255 * 2 ^ 23) < Binary32.place (x b i) ∧
          Binary32.place (x b i) < 255 * 2 ^ 23) :=
        fun h => absurd (hfinite.mpr h) Bool.false_ne_true
      constructor
      · intro h
        have hplace : Binary32.place (x b i) = 255 * 2 ^ 23 := by omega
        rw [htop hplace, ne_eq, hinf]
        omega
      · rintro ⟨hne, -⟩
        rw [ne_eq, hinf] at hne
        omega
  · rw [decide_eq_false_iff_not, Int.not_le] at hfalse
    have hrn := Binary32.isNaN_of_isFinite hr
    have hcn : Binary32.isNaN (Binary32.neg r) = false := by rw [Binary32.isNaN_neg, hrn]
    have hrplace := (Binary32.isFinite_iff_place r).mp hr
    rw [Binary32.le_iff hcn hxi, Binary32.place_neg, ne_eq, hinf]
    constructor
    · intro hle
      have hanti := countGt_anti hx hcn hxi (by rw [Binary32.place_neg]; exact hle)
      omega
    · rintro ⟨hne, hcount⟩
      cases hf : Binary32.isFinite (x b i) with
      | true =>
        have hle := hgreatest (Binary32.neg (x b i)) (by rw [Binary32.isFinite_neg, hf]) (by
          rw [Binary32.neg_neg, decide_eq_false_iff_not, Int.not_le]
          exact hcount)
        rw [Binary32.le_iff (by rw [Binary32.isNaN_neg, hxi]) hrn, Binary32.place_neg] at hle
        omega
      | false =>
        rw [hf] at hfinite
        have hends : ¬ (-(255 * 2 ^ 23) < Binary32.place (x b i) ∧
            Binary32.place (x b i) < 255 * 2 ^ 23) :=
          fun h => absurd (hfinite.mpr h) Bool.false_ne_true
        omega

/-! ### The first entries of the sorted row -/

section sorted

variable {row : Fin vocab → Binary32}

/-- The values of a row, as they are sorted. -/
def scores (row : Fin vocab → Binary32) (i : Nat) : Int :=
  if h : i < vocab then Binary32.scaled (row ⟨i, h⟩) else 0

theorem scores_val (row : Fin vocab → Binary32) (i : Fin vocab) :
    scores row i = Binary32.scaled (row i) := by
  unfold scores
  rw [dif_pos i.isLt]

theorem lt_iff_scores (hrow : ∀ j, Binary32.isNaN (row j) = false) (i j : Fin vocab) :
    Binary32.lt (row i) (row j) = true ↔ scores row i < scores row j := by
  rw [scores_val, scores_val, Binary32.scaled_lt_iff, Binary32.lt_iff (hrow i) (hrow j)]

/-- Fewer than `k` entries are larger exactly when the entry is not below all of the first `k`
entries. -/
theorem countGt_lt_iff (hrow : ∀ j, Binary32.isNaN (row j) = false) (i : Fin vocab) (k : Nat) :
    countGt row (row i) < k ↔
      ∃ l ∈ topK k vocab (scores row), scores row l ≤ scores row i := by
  constructor
  · intro hcount
    by_contra hnone
    push Not at hnone
    have hout : i.val ∉ topK k vocab (scores row) := fun hi => lt_irrefl _ (hnone i hi)
    -- then all of the first entries are larger, and there are `k` of them
    have hk : k ≤ vocab := by
      by_contra hlt
      apply hout
      unfold topK
      rw [List.take_of_length_le (by
        unfold ranking
        rw [List.length_insertionSort, List.length_range]
        omega)]
      exact mem_ranking.mpr i.isLt
    have hsub : (topK k vocab (scores row)).toFinset ⊆
        (Finset.univ.filter fun j => Binary32.lt (row i) (row j) = true).map Fin.valEmbedding := by
      intro l hl
      rw [List.mem_toFinset] at hl
      have hlt := lt_of_mem_topK hl
      rw [Finset.mem_map]
      refine ⟨⟨l, hlt⟩, Finset.mem_filter.mpr ⟨Finset.mem_univ _, ?_⟩, rfl⟩
      rw [lt_iff_scores hrow]
      exact hnone l hl
    have hcard := Finset.card_le_card hsub
    rw [List.toFinset_card_of_nodup (nodup_topK _ _ _), length_topK hk, Finset.card_map] at hcard
    exact absurd hcount (Nat.not_lt.mpr hcard)
  · rintro ⟨l, hl, hle⟩
    -- what is larger than the entry comes before `l`
    have hsub : (Finset.univ.filter fun j => Binary32.lt (row i) (row j) = true).map
        Fin.valEmbedding ⊆ (topK k vocab (scores row)).toFinset.erase l := by
      intro larger hlarger
      obtain ⟨j, hj, rfl⟩ := Finset.mem_map.mp hlarger
      have hlt := (lt_iff_scores hrow i j).mp (Finset.mem_filter.mp hj).2
      rw [Finset.mem_erase, List.mem_toFinset]
      constructor
      · intro heq
        rw [Fin.valEmbedding_apply] at heq
        rw [heq] at hlt
        exact absurd (hlt.trans_le hle) (lt_irrefl _)
      · exact mem_topK_of_precedes hl (.inl (hle.trans_lt hlt)) j.isLt
    have hcard := Finset.card_le_card hsub
    rw [Finset.card_map, Finset.card_erase_of_mem (List.mem_toFinset.mpr hl),
      List.toFinset_card_of_nodup (nodup_topK _ _ _)] at hcard
    have hpos : 0 < (topK k vocab (scores row)).length := List.length_pos_of_mem hl
    have hlen : (topK k vocab (scores row)).length ≤ k := List.length_take_le _ _
    unfold countGt
    omega

end sorted

/-- The search by bits keeps the entries that are as large as one of the first `k` entries of
the sorted row; nothing is sorted. -/
theorem topkMask_keeps_topK (x : β → Fin vocab → Binary32) (k : β → Nat) (replaceVal : Binary32)
    (b : β) (i : Fin vocab) (hx : ∀ j, Binary32.isNaN (x b j) = false) (hk : 1 ≤ k b) :
    topkMask x (fun b => k b) replaceVal b i =
      if x b i ≠ Binary32.negInf ∧
        ∃ l ∈ topK (k b) vocab (scores (x b)), scores (x b) l ≤ scores (x b) i then x b i
      else replaceVal := by
  rw [topkMask_apply x _ replaceVal b i hx (Int.ofNat_le.mpr hk)]
  apply if_congr _ rfl rfl
  rw [Int.ofNat_lt, countGt_lt_iff hx]

def tiedRow (_ : Unit) (i : Fin 3) : Binary32 := if i = 1 then 0x3f800000#32 else 0x40000000#32

/-- With two largest entries both are kept for `k = 1`. -/
theorem tiedRow_kept : topkMask tiedRow (fun _ => ((1 : Nat) : Int)) Binary32.zero () 2 =
    0x40000000#32 := by
  rw [topkMask_keeps_topK tiedRow (fun _ => 1) Binary32.zero () 2 (by decide) (by decide)]
  decide

/-! ### The mass of what is more likely -/

/-- A row of probabilities, with sums that do not grow when entries are left out; rounding a
sum keeps the order of the sums. -/
structure Probabilities (ops : RowOps vocab) (probs : Fin vocab → Binary32) : Prop where
  finite : ∀ j, Binary32.isFinite (probs j) = true
  sum_mono : ∀ chosen chosen' : Fin vocab → Bool, (∀ j, chosen j = true → chosen' j = true) →
    Binary32.le (mass ops probs chosen) (mass ops probs chosen') = true

section mass

variable {ops : RowOps vocab} {probs : Fin vocab → Binary32}

theorem Probabilities.monotone (h : Probabilities ops probs) (p : Binary32) :
    MonotoneFloat fun t =>
      Binary32.lt (mass ops probs fun j => Binary32.le t (probs j)) p := by
  intro s t hs ht hst
  apply Binary32.lt_of_le_of_lt
  apply h.sum_mono
  intro j hj
  have hjn := Binary32.isNaN_of_isFinite (h.finite j)
  rw [Binary32.le_iff (Binary32.isNaN_of_isFinite ht) hjn] at hj
  rw [Binary32.le_iff (Binary32.isNaN_of_isFinite hs) (Binary32.isNaN_of_isFinite ht)] at hst
  rw [Binary32.le_iff (Binary32.isNaN_of_isFinite hs) hjn]
  omega

/-- Some entry above `t` is the least of them. -/
theorem exists_least_above (hfin : ∀ j, Binary32.isFinite (probs j) = true) {t : Binary32}
    (ht : Binary32.isNaN t = false) (h : ∃ j, Binary32.lt t (probs j) = true) :
    ∃ least, Binary32.lt t (probs least) = true ∧
      ∀ j, Binary32.lt t (probs j) = Binary32.le (probs least) (probs j) := by
  obtain ⟨first, hfirst⟩ := h
  have hn := fun j => Binary32.isNaN_of_isFinite (hfin j)
  obtain ⟨least, hmem, hmin⟩ := (Finset.univ.filter fun j => Binary32.lt t (probs j) = true)
    |>.exists_min_image (fun j => Binary32.place (probs j)) ⟨first, by simp [hfirst]⟩
  have hleast := (Finset.mem_filter.mp hmem).2
  refine ⟨least, hleast, fun j => ?_⟩
  rw [Bool.eq_iff_iff, Binary32.le_iff (hn least) (hn j)]
  constructor
  · intro hj
    exact hmin j (Finset.mem_filter.mpr ⟨Finset.mem_univ j, hj⟩)
  · intro hj
    rw [Binary32.lt_iff ht (hn least)] at hleast
    rw [Binary32.lt_iff ht (hn j)]
    omega

end mass

/-- A token is kept when the tokens that are more likely have less than the requested mass
together. -/
theorem toppMask_apply (ops : RowOps vocab) (logits : β → Fin vocab → Binary32)
    (p : β → Binary32) (replaceVal : Binary32) (b : β) (i : Fin vocab)
    (hprobs : Probabilities ops (ops.softmax (logits b)))
    (hp : Binary32.lt (mass ops (ops.softmax (logits b)) fun _ => false) (p b) = true) :
    toppMask ops logits p replaceVal b i =
      if Binary32.lt (mass ops (ops.softmax (logits b)) fun j =>
          Binary32.lt (ops.softmax (logits b) i) (ops.softmax (logits b) j)) (p b) = true
      then logits b i else replaceVal := by
  have hsearch := float32Bsearch_greatest (fun b t => Binary32.lt
    (mass ops (ops.softmax (logits b)) fun j => Binary32.le t (ops.softmax (logits b) j)) (p b)) b
    (hprobs.monotone (p b))
  have heq : toppMask ops logits p replaceVal b i = if Binary32.le (float32Bsearch
      (fun t b => Binary32.lt (mass ops (ops.softmax (logits b)) fun j =>
        Binary32.le (t b) (ops.softmax (logits b) j)) (p b)) b) (ops.softmax (logits b) i) = true
      then logits b i else replaceVal := rfl
  rw [heq]
  generalize float32Bsearch _ b = r at hsearch ⊢
  generalize ops.softmax (logits b) = probs at hprobs hp hsearch ⊢
  have hfin := hprobs.finite
  have hn := fun j => Binary32.isNaN_of_isFinite (hfin j)
  have hplace := (Binary32.isFinite_iff_place (probs i)).mp (hfin i)
  apply if_congr _ rfl rfl
  -- the mass above entry `i` is the mass from the next larger entry on
  have hnext : (∃ j, Binary32.lt (probs i) (probs j) = true) → ∃ least,
      Binary32.lt (probs i) (probs least) = true ∧
        mass ops probs (fun j => Binary32.lt (probs i) (probs j)) =
          mass ops probs fun j => Binary32.le (probs least) (probs j) := by
    intro hsome
    obtain ⟨least, hlt, heqv⟩ := exists_least_above hfin (hn i) hsome
    exact ⟨least, hlt, congrArg _ (funext heqv)⟩
  rcases hsearch with ⟨hall, rfl⟩ | ⟨hr, hfalse, hgreatest⟩
  · have hle : Binary32.le Binary32.negInf (probs i) = true := by
      rw [Binary32.le_iff (by decide) (hn i), Binary32.place_negInf]
      omega
    rw [hle]
    refine ⟨fun _ => ?_, fun _ => rfl⟩
    apply Binary32.lt_of_le_of_lt _ (hall (probs i) (hfin i))
    apply hprobs.sum_mono
    intro j hj
    rw [Binary32.lt_iff (hn i) (hn j)] at hj
    rw [Binary32.le_iff (hn i) (hn j)]
    omega
  · have hrn := Binary32.isNaN_of_isFinite hr
    rw [Binary32.le_iff hrn (hn i)]
    constructor
    · intro hle
      by_cases hsome : ∃ j, Binary32.lt (probs i) (probs j) = true
      · obtain ⟨least, hlt, hmass⟩ := hnext hsome
        rw [hmass]
        by_contra hmore
        have hbelow := hgreatest (probs least) (hfin least) (Bool.not_eq_true _ ▸ hmore)
        rw [Binary32.le_iff (hn least) hrn] at hbelow
        rw [Binary32.lt_iff (hn i) (hn least)] at hlt
        omega
      · have hnone : (fun j => Binary32.lt (probs i) (probs j)) = fun _ => false := by
          funext j
          exact Bool.not_eq_true _ ▸ fun h => hsome ⟨j, h⟩
        rw [hnone]
        exact hp
    · intro hlt
      by_contra hle
      -- all entries from the threshold on are above entry `i`, and their mass is enough
      have hmass : Binary32.lt (mass ops probs fun j => Binary32.le r (probs j)) (p b) = true := by
        apply Binary32.lt_of_le_of_lt _ hlt
        apply hprobs.sum_mono
        intro j hj
        rw [Binary32.le_iff hrn (hn j)] at hj
        rw [Binary32.lt_iff (hn i) (hn j)]
        omega
      rw [hmass] at hfalse
      exact absurd hfalse (by decide)

end SglJax.Layers
