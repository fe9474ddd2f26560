import QueryDoc.Decimal.Layout

/-! Values of the JSON data format and their texts. -/

namespace QueryDoc

inductive Json where
  | null
  | bool (value : Bool)
  | int (value : Int)
  | float (value : Binary64)
  | string (text : String)
  | array (items : List Json)
  | object (members : List (String × Json))
deriving Inhabited, Repr

namespace Json

/-- An object with a single member, whose key says what kind of value it holds. -/
def tagged (tag : String) (value : Json) : Json :=
  object [(tag, value)]

/-- Numbers from a hundred-thousandth up to ten to the sixteenth are written positionally. Of two
equally near decimals the even one is written. -/
def floatFormat : Decimal.Format :=
  { tie := .toEven, plainFrom := -5, plainBelow := 16, plusSign := true }

/-- JSON has no infinities. -/
def floatText (x : Binary64) : List Char :=
  if x.isFinite then Decimal.finiteText floatFormat x else "null".toList

def intText (n : Int) : List Char :=
  (if n < 0 then ['-'] else []) ++ Nat.toDigits 10 n.natAbs

/-- Quotes, backslashes and control characters are escaped, the latter by name if they have one. -/
def escapeChar (c : Char) : List Char :=
  if c = '"' then ['\\', '"']
  else if c = '\\' then ['\\', '\\']
  else if c = '\x08' then ['\\', 'b']
  else if c = '\t' then ['\\', 't']
  else if c = '\n' then ['\\', 'n']
  else if c = '\x0c' then ['\\', 'f']
  else if c = '\r' then ['\\', 'r']
  else if c.toNat < 0x10 then "\\u000".toList ++ Nat.toDigits 16 c.toNat
  else if c.toNat < 0x20 then "\\u00".toList ++ Nat.toDigits 16 c.toNat
  else [c]

def stringText (text : String) : List Char :=
  '"' :: text.toList.flatMap escapeChar ++ ['"']

mutual

def compact : Json → List Char
  | null => "null".toList
  | bool true => "true".toList
  | bool false => "false".toList
  | int n => intText n
  | float x => floatText x
  | string text => stringText text
  | array items => '[' :: [','].intercalate (compactItems items) ++ [']']
  | object members => '{' :: [','].intercalate (compactMembers members) ++ ['}']

def compactItems : List Json → List (List Char)
  | [] => []
  | item :: items => item.compact :: compactItems items

def compactMembers : List (String × Json) → List (List Char)
  | [] => []
  | (key, value) :: members =>
    (stringText key ++ ':' :: value.compact) :: compactMembers members

end

def newline (level : Nat) : List Char :=
  '\n' :: List.replicate (2 * level) ' '

/-- Brackets around items that each stand on a line of their own. -/
def block (opening closing : Char) (level : Nat) (items : List (List Char)) : List Char :=
  if items.isEmpty then [opening, closing]
  else
    opening :: newline (level + 1) ++ (',' :: newline (level + 1)).intercalate items ++
      newline level ++ [closing]

mutual

/-- The text with an item on each line, indented by two spaces a level. -/
def indented (level : Nat) : Json → List Char
  | array items => block '[' ']' level (indentedItems (level + 1) items)
  | object members => block '{' '}' level (indentedMembers (level + 1) members)
  | null => compact null
  | bool b => compact (bool b)
  | int n => compact (int n)
  | float x => compact (float x)
  | string text => compact (string text)

def indentedItems (level : Nat) : List Json → List (List Char)
  | [] => []
  | item :: items => item.indented level :: indentedItems level items

def indentedMembers (level : Nat) : List (String × Json) → List (List Char)
  | [] => []
  | (key, value) :: members =>
    (stringText key ++ ':' :: ' ' :: value.indented level) :: indentedMembers level members

end

/-- Members in the order of their keys, by code point. -/
def sortMembers (members : List (String × Json)) : List (String × Json) :=
  members.mergeSort fun a b => !decide (b.1 < a.1)

mutual

def sortKeys : Json → Json
  | array items => array (sortKeysItems items)
  | object members => object (sortMembers (sortKeysMembers members))
  | value => value

def sortKeysItems : List Json → List Json
  | [] => []
  | item :: items => item.sortKeys :: sortKeysItems items

def sortKeysMembers : List (String × Json) → List (String × Json)
  | [] => []
  | (key, value) :: members => (key, value.sortKeys) :: sortKeysMembers members

end

end Json

end QueryDoc
