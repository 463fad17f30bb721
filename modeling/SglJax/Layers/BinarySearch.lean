import SglJax.Foundation.Binary32
import Mathlib.Data.Fintype.Card
import Mathlib.Algebra.Order.Ring.Int

/-! Binary search over the bits of single precision numbers, one search for every element of
a batch. -/
namespace SglJax.Layers
open SglJax.Foundation

variable {β : Type}

/-- `lax.fori_loop(0, n, body, init)` -/
def foriLoop {σ : Type} (body : Nat → σ → σ) (init : σ) : Nat → σ
  | 0 => init
  | n + 1 => body n (foriLoop body init n)

def loopBody (predicate : (β → BitVec 32) → β → Bool) (i : Nat) (currentBits : β → BitVec 32) :
    β → BitVec 32 :=
  let bit := 1#32 <<< (30 - i)
  let midpoint := fun b => currentBits b ||| bit
  let predicateSatisfied := predicate midpoint
  fun b => currentBits b ||| if predicateSatisfied b then 0#32 else bit

def int32Bsearch (predicate : (β → BitVec 32) → β → Bool) : β → BitVec 32 :=
  let currentBits : β → BitVec 32 := fun _ => 0#32
  -- bit 31 compares in the opposite order of all other bits
  let predicateSatisfied := predicate currentBits
  let currentBits := fun b => currentBits b ||| if predicateSatisfied b then 1#32 <<< 31 else 0#32
  foriLoop (loopBody predicate) currentBits 31

def monotonicInt32ToFloat32BitPattern (x : BitVec 32) : BitVec 32 :=
  let nonSignBits := BitVec.ofNat 32 (2 ^ 31 - 1)
  x ^^^ if x.slt 0#32 then nonSignBits else 0#32

def exponentBits : BitVec 32 := BitVec.ofNat 32 (2 ^ 31 - 2 ^ (31 - 8))

def int32Predicate (predicate : (β → Binary32) → β → Bool) (x : β → BitVec 32) : β → Bool :=
  let x := fun b => monotonicInt32ToFloat32BitPattern (x b)
  let isFinite := fun b => (x b &&& exponentBits) != exponentBits
  let predicateOnNonfinite := fun b => !(x b).slt 0#32
  let predicateOnFloat := predicate x
  fun b => if isFinite b then predicateOnFloat b else predicateOnNonfinite b

def float32Bsearch (predicate : (β → Binary32) → β → Bool) : β → Binary32 :=
  fun b => monotonicInt32ToFloat32BitPattern (int32Bsearch (int32Predicate predicate) b)

/-! ### The search on integers -/

/-- The search of one element when the lowest `n` bits are still to be found. -/
structure Searched (row : BitVec 32 → Bool) (n : Nat) (current : BitVec 32) : Prop where
  room : current.toNat % 2 ^ 31 + 2 ^ n ≤ 2 ^ 31
  aligned : 2 ^ n ∣ current.toNat
  found : row current = false ∨ current = BitVec.intMin 32
  below : ∀ t, row t = false → t.toInt < current.toInt + 2 ^ n

/-- `row` is false up to some number and true above it. -/
def Monotone32 (row : BitVec 32 → Bool) : Prop :=
  ∀ s t : BitVec 32, s.toInt ≤ t.toInt → row s = true → row t = true

section search

variable {row : BitVec 32 → Bool} {current : BitVec 32} {n : Nat}

theorem toNat_or_bit (hn : n < 31) (halign : 2 ^ (n + 1) ∣ current.toNat) :
    (current ||| 1#32 <<< n).toNat = current.toNat + 2 ^ n := by
  have hlt : (2 : Nat) ^ n < 2 ^ (n + 1) := Nat.pow_lt_pow_right Nat.one_lt_two (Nat.lt_succ_self n)
  have hfit : (2 : Nat) ^ n < 2 ^ 32 := Nat.pow_lt_pow_right Nat.one_lt_two (by omega)
  obtain ⟨a, ha⟩ := halign
  rw [BitVec.toNat_or, BitVec.toNat_shiftLeft, BitVec.toNat_ofNat,
    Nat.one_mod_eq_one.mpr (by decide), Nat.one_shiftLeft, Nat.mod_eq_of_lt hfit, ha, ← Nat.two_pow_add_eq_or_of_lt hlt]

theorem toInt_or_bit (hn : n < 31) (h : Searched row (n + 1) current) :
    (current ||| 1#32 <<< n).toInt = current.toInt + 2 ^ n := by
  have hor := toNat_or_bit hn h.aligned
  have hroom := h.room
  have htwo : (2 : Nat) ^ (n + 1) = 2 * 2 ^ n := Nat.pow_succ'
  have hpos : 0 < (2 : Nat) ^ n := Nat.two_pow_pos n
  have hcast : ((2 ^ n : Nat) : Int) = 2 ^ n := by norm_cast
  rw [BitVec.toInt_eq_toNat_cond, BitVec.toInt_eq_toNat_cond, hor]
  split <;> split <;> omega

/-- One round of the loop finds one bit. -/
theorem Searched.step (hrow : Monotone32 row) (hn : n < 31) (h : Searched row (n + 1) current) :
    Searched row n (current ||| if row (current ||| 1#32 <<< n) then 0#32 else 1#32 <<< n) := by
  have hroom := h.room
  have htwo : (2 : Nat) ^ (n + 1) = 2 * 2 ^ n := Nat.pow_succ'
  have htwoInt : (2 : Int) ^ (n + 1) = 2 * 2 ^ n := pow_succ' 2 n
  have hpos : 0 < (2 : Nat) ^ n := Nat.two_pow_pos n
  have hdvd : (2 : Nat) ^ n ∣ current.toNat := (Nat.pow_dvd_pow 2 (Nat.le_succ n)).trans h.aligned
  have hint := toInt_or_bit hn h
  cases hmid : row (current ||| 1#32 <<< n) with
  | true =>
    rw [if_pos rfl, BitVec.or_zero]
    refine ⟨by omega, hdvd, h.found, fun t ht => ?_⟩
    -- a number from the midpoint on satisfies the predicate
    rcases lt_or_ge t.toInt (current.toInt + 2 ^ n) with hlt | hge
    · exact hlt
    · rw [← hint] at hge
      rw [hrow _ _ hge hmid] at ht
      exact absurd ht (by decide)
  | false =>
    have hnat := toNat_or_bit hn h.aligned
    rw [if_neg Bool.false_ne_true]
    refine ⟨?_, ?_, .inl hmid, fun t ht => ?_⟩
    · rw [hnat]
      omega
    · rw [hnat]
      exact Nat.dvd_add hdvd (Nat.dvd_refl _)
    · have hbelow := h.below t ht
      rw [hint]
      omega

theorem Searched.start (hrow : Monotone32 row) :
    Searched row 31 (0#32 ||| if row 0#32 then 1#32 <<< 31 else 0#32) := by
  cases hzero : row 0#32 with
  | true =>
    refine ⟨by decide, by decide, .inr (by decide), fun t ht => ?_⟩
    rcases lt_or_ge t.toInt 0 with hlt | hge
    · exact hlt
    · rw [hrow 0#32 t hge hzero] at ht
      exact absurd ht (by decide)
  | false => exact ⟨by decide, by decide, .inl hzero, fun t _ => BitVec.toInt_lt⟩

theorem Searched.loop (row : β → BitVec 32 → Bool) (b : β) (hrow : Monotone32 (row b))
    (init : β → BitVec 32) (h : Searched (row b) 31 (init b)) (n : Nat) (hn : n ≤ 31) :
    Searched (row b) (31 - n) (foriLoop (loopBody fun t b => row b (t b)) init n b) := by
  induction n with
  | zero => exact h
  | succ n ih =>
    have hstep := ih (by omega)
    rw [show 31 - n = 31 - (n + 1) + 1 by omega] at hstep
    have hbit : 30 - n = 31 - (n + 1) := by omega
    have := hstep.step hrow (by omega)
    simpa only [foriLoop, loopBody, hbit] using this

/-- The search returns the largest integer for which the predicate is false, and the least
integer where there is none. -/
theorem int32Bsearch_greatest (row : β → BitVec 32 → Bool) (b : β) (hrow : Monotone32 (row b)) :
    (row b (int32Bsearch (fun t b => row b (t b)) b) = false ∨
      int32Bsearch (fun t b => row b (t b)) b = BitVec.intMin 32) ∧
    ∀ t, row b t = false → t.toInt ≤ (int32Bsearch (fun t b => row b (t b)) b).toInt := by
  have h := Searched.loop row b hrow
    (fun b => 0#32 ||| if row b 0#32 then 1#32 <<< 31 else 0#32) (Searched.start hrow) 31
    (le_refl 31)
  refine ⟨h.found, fun t ht => ?_⟩
  have hbelow := h.below t ht
  rw [show (2 : Int) ^ (31 - 31) = 1 by decide] at hbelow
  exact Int.lt_add_one_iff.mp hbelow

end search

/-! ### Integers as float patterns -/

section pattern

variable {x y : BitVec 32}

theorem pattern_of_nonneg (h : 0 ≤ x.toInt) : monotonicInt32ToFloat32BitPattern x = x := by
  have hslt : x.slt 0#32 = false := by
    rw [BitVec.slt_eq_decide, decide_eq_false_iff_not]
    exact not_lt.mpr h
  unfold monotonicInt32ToFloat32BitPattern
  dsimp only
  rw [hslt, if_neg Bool.false_ne_true, BitVec.xor_zero]

theorem pattern_of_neg (h : x.toInt < 0) :
    monotonicInt32ToFloat32BitPattern x = Binary32.neg (~~~x) := by
  have hslt : x.slt 0#32 = true := by
    rw [BitVec.slt_eq_decide, decide_eq_true_iff]
    exact h
  unfold monotonicInt32ToFloat32BitPattern Binary32.neg
  dsimp only
  rw [hslt, if_pos rfl, ← BitVec.xor_allOnes, BitVec.xor_assoc]
  congr 1

/-- Patterns are placed as the integers are; the two zeros share one place. -/
theorem place_pattern (x : BitVec 32) :
    Binary32.place (monotonicInt32ToFloat32BitPattern x) =
      if 0 ≤ x.toInt then x.toInt else x.toInt + 1 := by
  have hx := x.isLt
  have hint := BitVec.toInt_eq_toNat_cond x
  split
  next h =>
    have hmsb : x.msb = false := by
      rw [BitVec.msb_eq_decide, decide_eq_false_iff_not]
      split at hint <;> omega
    rw [pattern_of_nonneg h]
    unfold Binary32.place Binary32.low
    rw [hmsb, if_neg Bool.false_ne_true]
    split at hint <;> omega
  next h =>
    have hmsb : (~~~x).msb = false := by
      rw [BitVec.msb_eq_decide, decide_eq_false_iff_not, BitVec.toNat_not]
      split at hint <;> omega
    rw [pattern_of_neg (not_le.mp h), Binary32.place_neg]
    unfold Binary32.place Binary32.low
    rw [hmsb, if_neg Bool.false_ne_true, BitVec.toNat_not]
    split at hint <;> omega

theorem place_pattern_mono (h : x.toInt ≤ y.toInt) :
    Binary32.place (monotonicInt32ToFloat32BitPattern x) ≤
      Binary32.place (monotonicInt32ToFloat32BitPattern y) := by
  rw [place_pattern, place_pattern]
  split <;> split <;> omega

/-- Every pattern is the pattern of an integer. -/
theorem pattern_pattern (x : BitVec 32) :
    monotonicInt32ToFloat32BitPattern (monotonicInt32ToFloat32BitPattern x) = x := by
  rcases lt_or_ge x.toInt 0 with h | h
  · have hx := x.isLt
    have hint := BitVec.toInt_eq_toNat_cond x
    have hneg : (Binary32.neg (~~~x)).toInt < 0 := by
      rw [BitVec.toInt_eq_toNat_cond, Binary32.toNat_neg, BitVec.toNat_not]
      split at hint <;> split <;> split <;> omega
    rw [pattern_of_neg h, pattern_of_neg hneg]
    unfold Binary32.neg
    rw [BitVec.not_xor_left, BitVec.not_not, BitVec.xor_assoc, BitVec.xor_self, BitVec.xor_zero]
  · rw [pattern_of_nonneg h, pattern_of_nonneg h]

theorem and_exponentBits (x : BitVec 32) :
    ((x &&& exponentBits) != exponentBits) = Binary32.isFinite x := by
  have hdiv : (x &&& exponentBits).toNat / 2 ^ 23 = x.toNat / 2 ^ 23 % 2 ^ 8 := by
    rw [BitVec.toNat_and, Nat.and_div_two_pow, ← Nat.and_two_pow_sub_one_eq_mod]
    rfl
  have hmod : (x &&& exponentBits).toNat % 2 ^ 23 = 0 := by
    rw [BitVec.toNat_and, Nat.and_mod_two_pow]
    exact Nat.and_zero _
  have hbits : exponentBits.toNat = 255 * 2 ^ 23 := by decide
  unfold Binary32.isFinite Binary32.exponent
  rw [Bool.eq_iff_iff, bne_iff_ne, bne_iff_ne, ne_eq, ne_eq, ← BitVec.toNat_inj, hbits, ← hdiv]
  omega

theorem toInt_nonneg_of_place (h : 0 < Binary32.place x) : x.slt 0#32 = false := by
  have hx := x.isLt
  rw [BitVec.slt_zero_eq_msb]
  unfold Binary32.place at h
  cases hmsb : x.msb with
  | true => rw [hmsb, if_pos rfl] at h; omega
  | false => rfl

theorem toInt_neg_of_place (h : Binary32.place x < 0) : x.slt 0#32 = true := by
  rw [BitVec.slt_zero_eq_msb]
  unfold Binary32.place at h
  cases hmsb : x.msb with
  | true => rfl
  | false => rw [hmsb, if_neg Bool.false_ne_true] at h; omega

end pattern

/-! ### The search on floats -/

/-- The predicate of one element on integers, as the search on floats asks it. -/
def intRow (row : Binary32 → Bool) (x : BitVec 32) : Bool :=
  if Binary32.isFinite (monotonicInt32ToFloat32BitPattern x) then
    row (monotonicInt32ToFloat32BitPattern x)
  else !(monotonicInt32ToFloat32BitPattern x).slt 0#32

theorem int32Predicate_eq (row : β → Binary32 → Bool) :
    int32Predicate (fun t b => row b (t b)) = fun t b => intRow (row b) (t b) := by
  funext t b
  unfold int32Predicate intRow
  simp only [and_exponentBits]

/-- On finite numbers `row` is false up to some number and true above it. -/
def MonotoneFloat (row : Binary32 → Bool) : Prop :=
  ∀ x y : Binary32, x.isFinite = true → y.isFinite = true → x.le y = true →
    row x = true → row y = true

section float

variable {row : Binary32 → Bool} {x y : BitVec 32}

theorem intRow_finite (h : Binary32.isFinite (monotonicInt32ToFloat32BitPattern x) = true) :
    intRow row x = row (monotonicInt32ToFloat32BitPattern x) := by
  unfold intRow
  rw [if_pos h]

/-- Numbers that are not finite are true above the finite ones and false below them. -/
theorem intRow_nonfinite (h : Binary32.isFinite (monotonicInt32ToFloat32BitPattern x) = false) :
    intRow row x = true ↔ 0 < Binary32.place (monotonicInt32ToFloat32BitPattern x) := by
  have hplace := Binary32.isFinite_iff_place (monotonicInt32ToFloat32BitPattern x)
  unfold intRow
  rw [h, if_neg Bool.false_ne_true]
  rw [h] at hplace
  rcases lt_or_ge 0 (Binary32.place (monotonicInt32ToFloat32BitPattern x)) with hlt | hge
  · simp [toInt_nonneg_of_place hlt, hlt]
  · have hneg : Binary32.place (monotonicInt32ToFloat32BitPattern x) < 0 := by
      have hne : ¬ (-(255 * 2 ^ 23) < Binary32.place (monotonicInt32ToFloat32BitPattern x) ∧
          Binary32.place (monotonicInt32ToFloat32BitPattern x) < 255 * 2 ^ 23) :=
        fun hp => absurd (hplace.mpr hp) Bool.false_ne_true
      omega
    simp [toInt_neg_of_place hneg, hge]

theorem monotone_intRow (hrow : MonotoneFloat row) : Monotone32 (intRow row) := by
  intro s t hst hs
  have hplace := place_pattern_mono hst
  have hsplace := Binary32.isFinite_iff_place (monotonicInt32ToFloat32BitPattern s)
  have htplace := Binary32.isFinite_iff_place (monotonicInt32ToFloat32BitPattern t)
  cases hsf : Binary32.isFinite (monotonicInt32ToFloat32BitPattern s) with
  | true =>
    rw [intRow_finite hsf] at hs
    cases htf : Binary32.isFinite (monotonicInt32ToFloat32BitPattern t) with
    | true =>
      rw [intRow_finite htf]
      apply hrow _ _ hsf htf _ hs
      rw [Binary32.le_iff (Binary32.isNaN_of_isFinite hsf) (Binary32.isNaN_of_isFinite htf)]
      exact hplace
    | false =>
      rw [intRow_nonfinite htf]
      rw [htf] at htplace
      have hs' := hsplace.mp hsf
      by_contra hneg
      exact absurd (htplace.mpr ⟨by omega, by omega⟩) Bool.false_ne_true
  | false =>
    rw [intRow_nonfinite hsf] at hs
    cases htf : Binary32.isFinite (monotonicInt32ToFloat32BitPattern t) with
    | true =>
      rw [hsf] at hsplace
      have ht' := htplace.mp htf
      exact absurd (hsplace.mpr ⟨by omega, by omega⟩) Bool.false_ne_true
    | false =>
      rw [intRow_nonfinite htf]
      omega

/-- What is below the finite numbers and has the place of the infinity is that infinity. -/
theorem eq_negInf (h : Binary32.place x = Binary32.place Binary32.negInf) :
    x = Binary32.negInf := by
  have hx := x.isLt
  have hmsb := Binary32.msb_iff x
  rw [Binary32.place_negInf] at h
  unfold Binary32.place Binary32.low at h
  apply BitVec.eq_of_toNat_eq
  rw [show BitVec.toNat Binary32.negInf = 2 ^ 31 + 255 * 2 ^ 23 by decide]
  split at h
  next hneg => have := hmsb.mp hneg; omega
  next => omega

end float

/-- The search returns the largest finite number for which the predicate is false, and minus
infinity when it is true for all of them. -/
theorem float32Bsearch_greatest (row : β → Binary32 → Bool) (b : β)
    (hrow : MonotoneFloat (row b)) :
    ((∀ x, Binary32.isFinite x = true → row b x = true) ∧
        float32Bsearch (fun t b => row b (t b)) b = Binary32.negInf) ∨
      Binary32.isFinite (float32Bsearch (fun t b => row b (t b)) b) = true ∧
        row b (float32Bsearch (fun t b => row b (t b)) b) = false ∧
        ∀ x, Binary32.isFinite x = true → row b x = false →
          Binary32.le x (float32Bsearch (fun t b => row b (t b)) b) = true := by
  obtain ⟨hfound, hbelow⟩ :=
    int32Bsearch_greatest (fun b => intRow (row b)) b (monotone_intRow hrow)
  have hr : float32Bsearch (fun t b => row b (t b)) b =
      monotonicInt32ToFloat32BitPattern (int32Bsearch (fun t b => intRow (row b) (t b)) b) := by
    unfold float32Bsearch
    rw [int32Predicate_eq]
  rw [hr]
  generalize int32Bsearch (fun t b => intRow (row b) (t b)) b = r at hfound hbelow
  -- the least integer is a pattern below all finite numbers, where the predicate is false too
  have hfalse : intRow (row b) r = false := by
    rcases hfound with h | h
    · exact h
    · rw [h]
      rfl
  -- numbers for which the predicate is false are placed below the result
  have hplaces : ∀ x, Binary32.isFinite x = true → row b x = false →
      Binary32.place x ≤ Binary32.place (monotonicInt32ToFloat32BitPattern r) := by
    intro x hx hxrow
    have := hbelow (monotonicInt32ToFloat32BitPattern x) (by
      rw [intRow_finite (by rwa [pattern_pattern]), pattern_pattern]
      exact hxrow)
    have hp := place_pattern_mono this
    rwa [pattern_pattern] at hp
  cases hfin : Binary32.isFinite (monotonicInt32ToFloat32BitPattern r) with
  | true =>
    rw [intRow_finite hfin] at hfalse
    refine .inr ⟨rfl, hfalse, fun x hx hxrow => ?_⟩
    rw [Binary32.le_iff (Binary32.isNaN_of_isFinite hx) (Binary32.isNaN_of_isFinite hfin)]
    exact hplaces x hx hxrow
  | false =>
    have hplace := Binary32.isFinite_iff_place (monotonicInt32ToFloat32BitPattern r)
    have hnonpos : ¬ 0 < Binary32.place (monotonicInt32ToFloat32BitPattern r) := by
      intro hpos
      have htrue : intRow (row b) r = true := (intRow_nonfinite hfin).mpr hpos
      rw [hfalse] at htrue
      exact absurd htrue Bool.false_ne_true
    rw [hfin] at hplace
    have hlow : Binary32.place (monotonicInt32ToFloat32BitPattern r) ≤ -(255 * 2 ^ 23) := by
      by_contra hgt
      exact absurd (hplace.mpr ⟨by omega, by omega⟩) Bool.false_ne_true
    refine .inl ⟨fun x hx => ?_, ?_⟩
    · by_contra hxrow
      have hle := hplaces x hx (Bool.not_eq_true _ ▸ hxrow)
      have hxp := (Binary32.isFinite_iff_place x).mp hx
      omega
    · -- minus infinity itself is among the numbers for which the search asks false
      have hinf := hbelow (monotonicInt32ToFloat32BitPattern Binary32.negInf) rfl
      have hp := place_pattern_mono hinf
      rw [pattern_pattern, Binary32.place_negInf] at hp
      apply eq_negInf
      rw [Binary32.place_negInf]
      omega

end SglJax.Layers
