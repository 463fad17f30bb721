import Mathlib.Data.List.Infix
import Mathlib.Tactic.Common

/-! Operations of Python's `str` and `int` on texts. A text is the list of its code
points. -/
namespace SglJax

abbrev Text := List Char

namespace Text

/-- `text.rpartition(sep)` without the separator; `none` when it is not found. -/
def rpartition (sep : Text) : Text → Option (Text × Text)
  | [] => if sep = [] then some ([], []) else none
  | c :: rest =>
    match rpartition sep rest with
    | some (before, after) => some (c :: before, after)
    | none =>
      if sep.isPrefixOf (c :: rest) then some ([], (c :: rest).drop sep.length) else none

theorem rpartition_eq_some {sep text before after : Text}
    (h : rpartition sep text = some (before, after)) : before ++ sep ++ after = text := by
  induction text generalizing before with
  | nil =>
    unfold rpartition at h
    split at h
    · rename_i hsep
      cases h
      simp [hsep]
    · cases h
  | cons c rest ih =>
    unfold rpartition at h
    split at h
    · rename_i b a heq
      cases h
      simp only [List.cons_append]
      rw [ih heq]
    · split at h
      · rename_i hprefix
        cases h
        obtain ⟨tail, htail⟩ := List.isPrefixOf_iff_prefix.mp hprefix
        rw [← htail, List.drop_left, List.nil_append]
      · cases h

/-- `text.find(sub)`; `none` is -1. -/
def find (sub : Text) : Text → Option Nat
  | [] => if sub = [] then some 0 else none
  | c :: rest => if sub.isPrefixOf (c :: rest) then some 0 else (find sub rest).map (· + 1)

/-- The code points of the decimal digits zero. -/
def decimalZeros : List Nat :=
  [0x30, 0x660, 0x6f0, 0x7c0, 0x966, 0x9e6, 0xa66, 0xae6, 0xb66, 0xbe6, 0xc66, 0xce6, 0xd66,
    0xde6, 0xe50, 0xed0, 0xf20, 0x1040, 0x1090, 0x17e0, 0x1810, 0x1946, 0x19d0, 0x1a80, 0x1a90,
    0x1b50, 0x1bb0, 0x1c40, 0x1c50, 0xa620, 0xa8d0, 0xa900, 0xa9d0, 0xa9f0, 0xaa50, 0xabf0,
    0xff10, 0x104a0, 0x10d30, 0x11066, 0x110f0, 0x11136, 0x111d0, 0x112f0, 0x11450, 0x114d0,
    0x11650, 0x116c0, 0x11730, 0x118e0, 0x11950, 0x11c50, 0x11d50, 0x11da0, 0x16a60, 0x16ac0,
    0x16b50, 0x1d7ce, 0x1d7d8, 0x1d7e2, 0x1d7ec, 0x1d7f6, 0x1e140, 0x1e2f0, 0x1e950, 0x1fbf0]

def decimalDigit (c : Char) : Option Nat :=
  (decimalZeros.find? fun first => first ≤ c.toNat && c.toNat < first + 10).map (c.toNat - ·)

/-- `c.isspace()` -/
def isSpace (c : Char) : Bool :=
  [0x9, 0xa, 0xb, 0xc, 0xd, 0x1c, 0x1d, 0x1e, 0x1f, 0x20, 0x85, 0xa0, 0x1680, 0x2000, 0x2001,
    0x2002, 0x2003, 0x2004, 0x2005, 0x2006, 0x2007, 0x2008, 0x2009, 0x200a, 0x2028, 0x2029,
    0x202f, 0x205f, 0x3000].contains c.toNat

def lstrip (text : Text) : Text := text.dropWhile isSpace

def rstrip (text : Text) : Text := (text.reverse.dropWhile isSpace).reverse

def strip (text : Text) : Text := rstrip (lstrip text)

/-- The digits of a number, where an underscore may stand between two of them. -/
def digits (value : Nat) : Text → Option Nat
  | [] => some value
  | '_' :: c :: rest =>
    match decimalDigit c with
    | some d => digits (10 * value + d) rest
    | none => none
  | c :: rest =>
    match decimalDigit c with
    | some d => digits (10 * value + d) rest
    | none => none

def natural : Text → Option Nat
  | [] => none
  | c :: rest => (decimalDigit c).bind fun d => digits d rest

/-- `int(text)`; `none` is the `ValueError`. -/
def toInt (text : Text) : Option Int :=
  match strip text with
  | '-' :: rest => (natural rest).map fun n => -(n : Int)
  | '+' :: rest => (natural rest).map Int.ofNat
  | rest => (natural rest).map Int.ofNat

example : toInt " +1_0 ".toList = some 10 := by decide

end Text

end SglJax
