import SglJax.Foundation.PyText

/-! Values of JSON, and how a text is written as one. -/
namespace SglJax

/-- A number is kept as it is written. -/
inductive Json where
  | null
  | bool (b : Bool)
  | num (lexeme : Text)
  | str (text : Text)
  | arr (items : List Json)
  | obj (members : List (Text × Json))

namespace Json

def isStr (text : Text) : Json → Bool
  | .str s => s = text
  | _ => false

/-- `bool(value)` -/
def truthy : Json → Bool
  | .null => false
  | .bool b => b
  | .num lexeme => lexeme.any fun c => '1' ≤ c && c ≤ '9'
  | .str s => !s.isEmpty
  | .arr items => !items.isEmpty
  | .obj members => !members.isEmpty

/-- `members.get(key)` -/
def get? (members : List (Text × Json)) (key : Text) : Option Json :=
  (members.find? fun member => member.1 = key).map Prod.snd

/-! ### Texts -/

def hexDigit (n : Nat) : Char := if n < 10 then Char.ofNat (48 + n) else Char.ofNat (87 + n)

/-- How `json.dumps(text, ensure_ascii=False)` writes a character. -/
def escapeChar (c : Char) : Text :=
  if c = '"' then ['\\', '"']
  else if c = '\\' then ['\\', '\\']
  else if c = '\n' then ['\\', 'n']
  else if c = '\r' then ['\\', 'r']
  else if c = '\t' then ['\\', 't']
  else if c = '\x0c' then ['\\', 'f']
  else if c = '\x08' then ['\\', 'b']
  else if c.toNat < 0x20 then ['\\', 'u', '0', '0', hexDigit (c.toNat / 16), hexDigit (c.toNat % 16)]
  else [c]

/-- `json.dumps(text, ensure_ascii=False)[1:-1]` -/
def escape (text : Text) : Text := text.flatMap escapeChar

/-- `json.dumps(text, ensure_ascii=False)` -/
def dumpsText (text : Text) : Text := '"' :: escape text ++ ['"']

end Json
end SglJax
