import SglJax.Foundation.PyText

/-! Decoding bytes as UTF-8, where what is not well formed becomes the replacement
character: `bytes.decode("utf-8", errors="replace")`. -/
namespace SglJax.Utf8

def replacement : Char := '\uFFFD'

/-- A character that still lacks `missing` bytes; the next one lies in a range. -/
structure Partial where
  value : Nat
  missing : Nat
  low : UInt8
  high : UInt8
deriving DecidableEq, Repr

/-- The first byte of a character. Narrower ranges exclude overlong forms, surrogates
and values beyond the last code point. -/
def begin (byte : UInt8) : Text × Option Partial :=
  if byte ≤ 0x7f then ([Char.ofNat byte.toNat], none)
  else if 0xc2 ≤ byte ∧ byte ≤ 0xdf then ([], some ⟨byte.toNat - 0xc0, 1, 0x80, 0xbf⟩)
  else if 0xe0 ≤ byte ∧ byte ≤ 0xef then
    ([], some ⟨byte.toNat - 0xe0, 2, if byte = 0xe0 then 0xa0 else 0x80,
      if byte = 0xed then 0x9f else 0xbf⟩)
  else if 0xf0 ≤ byte ∧ byte ≤ 0xf4 then
    ([], some ⟨byte.toNat - 0xf0, 3, if byte = 0xf0 then 0x90 else 0x80,
      if byte = 0xf4 then 0x8f else 0xbf⟩)
  else ([replacement], none)

/-- A byte in the middle of the text. One that does not continue the character ends it
and begins the next one. -/
def next : Option Partial → UInt8 → Text × Option Partial
  | none, byte => begin byte
  | some p, byte =>
    if p.low ≤ byte ∧ byte ≤ p.high then
      if p.missing ≤ 1 then ([Char.ofNat (p.value * 64 + byte.toNat % 64)], none)
      else ([], some ⟨p.value * 64 + byte.toNat % 64, p.missing - 1, 0x80, 0xbf⟩)
    else (replacement :: (begin byte).1, (begin byte).2)

def decodeFrom : Option Partial → List UInt8 → Text
  | none, [] => []
  | some _, [] => [replacement]
  | p, byte :: rest => (next p byte).1 ++ decodeFrom (next p byte).2 rest

def decode (bytes : List UInt8) : Text := decodeFrom none bytes

example : decode [0xc3, 0xa9, 0x61] = "éa".toList := by decide

example : decode [0xe2, 0x82, 0x61, 0xed, 0xa0, 0x80] =
    [replacement, 'a', replacement, replacement, replacement] := by decide

end SglJax.Utf8
