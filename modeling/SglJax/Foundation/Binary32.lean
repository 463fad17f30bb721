import Mathlib.Data.BitVec
import Mathlib.Data.Int.Order.Basic
import Mathlib.Tactic.Common

/-! Single precision numbers as their 32 bits: a sign, 8 bits of exponent, 23 bits of
mantissa. Numbers are compared as the standard has it: what is not a number compares with
nothing, and the two zeros are equal. -/
namespace SglJax.Foundation

/-- The bits of a single precision number. -/
abbrev Binary32 := BitVec 32

namespace Binary32

def exponent (x : Binary32) : Nat := x.toNat / 2 ^ 23 % 2 ^ 8

def mantissa (x : Binary32) : Nat := x.toNat % 2 ^ 23

def isNaN (x : Binary32) : Bool := exponent x == 255 && mantissa x != 0

def isFinite (x : Binary32) : Bool := exponent x != 255

/-- The absolute value in units of `2 ^ -149`, the least positive number; the exponent of the
infinities puts them above every finite number. -/
def magnitude (x : Binary32) : Nat :=
  if exponent x = 0 then mantissa x else (2 ^ 23 + mantissa x) * 2 ^ (exponent x - 1)

/-- The value in units of `2 ^ -149`. -/
def scaled (x : Binary32) : Int := if x.msb then -(magnitude x : Int) else magnitude x

/-- `-x` -/
def neg (x : Binary32) : Binary32 := x ^^^ BitVec.intMin 32

/-- `x < y` -/
def lt (x y : Binary32) : Bool := !isNaN x && !isNaN y && decide (scaled x < scaled y)

/-- `x <= y` -/
def le (x y : Binary32) : Bool := !isNaN x && !isNaN y && decide (scaled x ≤ scaled y)

def zero : Binary32 := 0#32

def posInf : Binary32 := 0x7f800000#32

def negInf : Binary32 := 0xff800000#32

/-! ### The order of the bits -/

/-- Exponent and mantissa, read as one number. -/
def low (x : Binary32) : Nat := x.toNat % 2 ^ 31

/-- Place of a number among all numbers; both zeros are at `0`. -/
def place (x : Binary32) : Int := if x.msb then -(low x : Int) else low x

theorem low_eq (x : Binary32) : exponent x * 2 ^ 23 + mantissa x = low x := by
  unfold exponent mantissa low
  omega

theorem mantissa_lt (x : Binary32) : mantissa x < 2 ^ 23 :=
  Nat.mod_lt _ (Nat.two_pow_pos 23)

theorem isFinite_iff (x : Binary32) : isFinite x = true ↔ low x < 255 * 2 ^ 23 := by
  have he : exponent x < 256 := Nat.mod_lt _ (Nat.two_pow_pos 8)
  have hm := mantissa_lt x
  have hl := low_eq x
  unfold isFinite
  rw [bne_iff_ne]
  omega

theorem isNaN_iff (x : Binary32) : isNaN x = true ↔ 255 * 2 ^ 23 < low x := by
  have he : exponent x < 256 := Nat.mod_lt _ (Nat.two_pow_pos 8)
  have hm := mantissa_lt x
  have hl := low_eq x
  unfold isNaN
  rw [Bool.and_eq_true, beq_iff_eq, bne_iff_ne]
  omega

theorem isNaN_false_iff (x : Binary32) : isNaN x = false ↔ low x ≤ 255 * 2 ^ 23 := by
  rw [← not_iff_not, Bool.not_eq_false, isNaN_iff, Nat.not_le]

theorem isNaN_of_isFinite {x : Binary32} (h : isFinite x = true) : isNaN x = false := by
  rw [isFinite_iff] at h
  rw [isNaN_false_iff]
  omega

/-- Magnitudes grow with the bits below the sign. -/
theorem magnitude_lt {x y : Binary32} (h : low x < low y) : magnitude x < magnitude y := by
  have hx := low_eq x
  have hy := low_eq y
  have hmx := mantissa_lt x
  have hmy := mantissa_lt y
  unfold magnitude
  rcases Nat.lt_or_ge (exponent x) (exponent y) with hlt | hge
  · rw [if_neg (show ¬ exponent y = 0 by omega)]
    -- the larger exponent alone decides: the mantissa of `x` is below one unit of it
    have hright : 2 ^ 23 * 2 ^ exponent x ≤ (2 ^ 23 + mantissa y) * 2 ^ (exponent y - 1) :=
      Nat.mul_le_mul (Nat.le_add_right _ _) (Nat.pow_le_pow_right Nat.two_pos (by omega))
    apply Nat.lt_of_lt_of_le _ hright
    split
    next h0 => rw [h0]; omega
    next h0 =>
      obtain ⟨e, he⟩ := Nat.exists_eq_succ_of_ne_zero h0
      have hdouble : 2 ^ 23 * 2 ^ (e + 1) = (2 ^ 23 + 2 ^ 23) * 2 ^ e := by
        have htwo : 2 ^ (e + 1) = 2 * 2 ^ e := Nat.pow_succ'
        omega
      rw [he, Nat.succ_sub_one, Nat.succ_eq_add_one, hdouble]
      exact Nat.mul_lt_mul_of_pos_right (by omega) (Nat.two_pow_pos e)
  · have heq : exponent x = exponent y := by omega
    rw [heq]
    split
    · omega
    · exact Nat.mul_lt_mul_of_pos_right (by omega) (Nat.two_pow_pos _)

theorem magnitude_congr {x y : Binary32} (h : low x = low y) : magnitude x = magnitude y := by
  have hx := low_eq x
  have hy := low_eq y
  have hmx := mantissa_lt x
  have hmy := mantissa_lt y
  have he : exponent x = exponent y := by omega
  have hm : mantissa x = mantissa y := by omega
  unfold magnitude
  rw [he, hm]

theorem magnitude_lt_iff (x y : Binary32) : magnitude x < magnitude y ↔ low x < low y := by
  constructor
  · intro h
    rcases Nat.lt_trichotomy (low x) (low y) with hlt | heq | hgt
    · exact hlt
    · exact absurd (magnitude_congr heq) (Nat.ne_of_lt h)
    · exact absurd (magnitude_lt hgt) (Nat.lt_asymm h)
  · exact magnitude_lt

theorem magnitude_pos_iff (x : Binary32) : 0 < magnitude x ↔ 0 < low x := by
  have h := magnitude_lt_iff zero x
  rwa [show magnitude zero = 0 by decide, show low zero = 0 by decide] at h

/-- Values are ordered as the places are. -/
theorem scaled_lt_iff (x y : Binary32) : scaled x < scaled y ↔ place x < place y := by
  have hxy := magnitude_lt_iff x y
  have hyx := magnitude_lt_iff y x
  have hx := magnitude_pos_iff x
  have hy := magnitude_pos_iff y
  unfold scaled place
  split <;> split <;> omega

theorem scaled_le_iff (x y : Binary32) : scaled x ≤ scaled y ↔ place x ≤ place y := by
  rw [← not_iff_not, Int.not_le, Int.not_le, scaled_lt_iff]

theorem lt_iff {x y : Binary32} (hx : isNaN x = false) (hy : isNaN y = false) :
    lt x y = true ↔ place x < place y := by
  unfold lt
  rw [hx, hy, ← scaled_lt_iff]
  simp

theorem le_iff {x y : Binary32} (hx : isNaN x = false) (hy : isNaN y = false) :
    le x y = true ↔ place x ≤ place y := by
  unfold le
  rw [hx, hy, ← scaled_le_iff]
  simp

theorem lt_of_le_of_lt {x y z : Binary32} (hxy : le x y = true) (hyz : lt y z = true) :
    lt x z = true := by
  unfold le at hxy
  unfold lt at hyz ⊢
  simp only [Bool.and_eq_true, decide_eq_true_iff] at hxy hyz ⊢
  exact ⟨⟨hxy.1.1, hyz.1.2⟩, hxy.2.trans_lt hyz.2⟩

theorem not_isNaN_of_le {x y : Binary32} (h : le x y = true) :
    isNaN x = false ∧ isNaN y = false := by
  unfold le at h
  simp only [Bool.and_eq_true, Bool.not_eq_true'] at h
  exact h.1

/-! ### Places of the classes -/

theorem isFinite_iff_place (x : Binary32) :
    isFinite x = true ↔ -(255 * 2 ^ 23) < place x ∧ place x < 255 * 2 ^ 23 := by
  rw [isFinite_iff]
  unfold place
  split <;> omega

theorem place_bounds {x : Binary32} (h : isNaN x = false) :
    -(255 * 2 ^ 23) ≤ place x ∧ place x ≤ 255 * 2 ^ 23 := by
  rw [isNaN_false_iff] at h
  unfold place
  split <;> omega

theorem place_posInf : place posInf = 255 * 2 ^ 23 := by decide

theorem place_negInf : place negInf = -(255 * 2 ^ 23) := by decide

theorem msb_iff (x : Binary32) : x.msb = true ↔ 2 ^ 31 ≤ x.toNat := by
  rw [BitVec.msb_eq_decide, decide_eq_true_iff]

/-! ### Negation -/

theorem toNat_neg (x : Binary32) :
    (neg x).toNat = if x.toNat < 2 ^ 31 then x.toNat + 2 ^ 31 else x.toNat - 2 ^ 31 := by
  have hx := x.isLt
  unfold neg
  rw [BitVec.toNat_xor, show (BitVec.intMin 32).toNat = 2 ^ 31 by decide]
  have hd := Nat.div_add_mod (x.toNat ^^^ 2 ^ 31) (2 ^ 31)
  rw [Nat.xor_div_two_pow, Nat.xor_mod_two_pow, Nat.div_self (Nat.two_pow_pos 31), Nat.mod_self,
    Nat.xor_zero] at hd
  rcases Nat.lt_or_ge x.toNat (2 ^ 31) with hlt | hge
  · rw [if_pos hlt, ← hd, Nat.div_eq_of_lt hlt, Nat.mod_eq_of_lt hlt, Nat.zero_xor]
    omega
  · have hone : x.toNat / 2 ^ 31 = 1 := by omega
    rw [if_neg (by omega), ← hd, hone, Nat.xor_self]
    omega

theorem low_neg (x : Binary32) : low (neg x) = low x := by
  have hx := x.isLt
  unfold low
  rw [toNat_neg]
  split <;> omega

@[simp] theorem place_neg (x : Binary32) : place (neg x) = -place x := by
  have hx := x.isLt
  have hmsb : (neg x).msb = !x.msb := by
    rw [BitVec.msb_eq_decide, BitVec.msb_eq_decide, toNat_neg, Bool.eq_iff_iff,
      decide_eq_true_iff, Bool.not_eq_true', decide_eq_false_iff_not]
    split <;> omega
  unfold place
  rw [hmsb, low_neg]
  cases x.msb <;> simp

@[simp] theorem isNaN_neg (x : Binary32) : isNaN (neg x) = isNaN x := by
  rw [Bool.eq_iff_iff, isNaN_iff, isNaN_iff, low_neg]

@[simp] theorem isFinite_neg (x : Binary32) : isFinite (neg x) = isFinite x := by
  rw [Bool.eq_iff_iff, isFinite_iff, isFinite_iff, low_neg]

@[simp] theorem neg_neg (x : Binary32) : neg (neg x) = x := by
  unfold neg
  rw [BitVec.xor_assoc, BitVec.xor_self, BitVec.xor_zero]

end Binary32

end SglJax.Foundation
