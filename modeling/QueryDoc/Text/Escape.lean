import QueryDoc.Text.Unseen

/-! How a character or a text is shown inside a message. -/

namespace QueryDoc.Text

/-- A code point escape in lower-case hexadecimal digits without padding. -/
def codePointEscape (c : Char) : List Char :=
  '\\' :: 'u' :: '{' :: Nat.toDigits 16 c.toNat ++ ['}']

/-- The escape of a byte of more than seven bits, with two capital digits. -/
def byteEscape (byte : UInt8) : List Char :=
  '\\' :: 'x' :: (Nat.toDigits 16 byte.toNat).map Char.toUpper

/-- The two-character escape of a control character or backslash that has one. -/
def namedEscape? (c : Char) : Option Char :=
  if c = '\x00' then some '0'
  else if c = '\t' then some 't'
  else if c = '\r' then some 'r'
  else if c = '\n' then some 'n'
  else if c = '\\' then some '\\'
  else none

/-- A character as shown in a message, where the characters of `quotes` take a backslash. -/
def escapeChar (quotes : List Char) (c : Char) : List Char :=
  match namedEscape? c with
  | some letter => ['\\', letter]
  | none =>
    if c ∈ quotes then ['\\', c]
    else if isUnseen c then codePointEscape c
    else [c]

def shown (c : Char) : String :=
  String.ofList (escapeChar ['\'', '"'] c)

def quoted (text : String) : String :=
  String.ofList ('"' :: text.toList.flatMap (escapeChar ['"']) ++ ['"'])

end QueryDoc.Text
