import QueryDoc.Decimal.Binary64
import QueryDoc.Decimal.Layout
import QueryDoc.Decimal.Literal
import QueryDoc.Reading.Token
import QueryDoc.Style

/-! Constant values. The fields of an object have distinct keys and keep their order. -/

namespace QueryDoc

inductive Atom where
  | null
  | bool (value : Bool)
  | int (value : Int64)
  | float (value : Binary64)
  /-- The characters between the quotes as they stand, without any escapes. -/
  | string (text : String)
  /-- A bare name other than `true`, `false` and `null`. -/
  | enum (name : String)
  | list (items : List Atom)
  | object (fields : List (String × Atom))
deriving Inhabited, Repr

namespace Atom

def kindName : Atom → String
  | null => "null"
  | bool _ => "boolean"
  | int _ => "int"
  | float _ => "float"
  | string _ => "string"
  | enum _ => "enum"
  | list _ => "list"
  | object _ => "object"

mutual

/-- Whether two values are the same, where floating point numbers are compared as numbers and the
order of an object's fields does not matter. -/
def same : Atom → Atom → Bool
  | null, null => true
  | bool a, bool b => a == b
  | int a, int b => a == b
  | float a, float b => a.numEq b
  | string a, string b => a == b
  | enum a, enum b => a == b
  | list as, list bs => sameItems as bs
  | object fs, object gs => fs.length == gs.length && sameFields fs gs
  | _, _ => false

def sameItems : List Atom → List Atom → Bool
  | [], [] => true
  | a :: as, b :: bs => same a b && sameItems as bs
  | _, _ => false

/-- Whether each field on the left is also found on the right. -/
def sameFields : List (String × Atom) → List (String × Atom) → Bool
  | [], _ => true
  | (k, a) :: fs, gs =>
    (match gs.lookup k with
      | some b => same a b
      | none => false) && sameFields fs gs

end

end Atom

end QueryDoc

/-! ### Writing values -/

namespace QueryDoc.Atom

/-- Numbers from a ten-thousandth up to ten to the sixteenth are written positionally. Of two
equally near decimals the larger one is written. -/
def floatFormat : Decimal.Format :=
  { tie := .up, plainFrom := -4, plainBelow := 16, plusSign := false }

/-- A floating point number always has a point or an exponent, so that it is not read back as an
integer. Infinities and what is not a number have texts that do not read back. -/
def floatText (x : Binary64) : List Char :=
  if x.isNaN then "NaN".toList
  else if x.isFinite then Decimal.finiteText floatFormat x
  else if x.negative then "-inf".toList
  else "inf".toList

def intText (n : Int64) : List Char :=
  (if n.toInt < 0 then ['-'] else []) ++ Nat.toDigits 10 n.toInt.natAbs

mutual

def chars (style : Style) : Atom → List Char
  | null => "null".toList
  | bool true => "true".toList
  | bool false => "false".toList
  | int n => intText n
  | float x => floatText x
  | string text => '"' :: text.toList ++ ['"']
  | enum name => name.toList
  | list items => '[' :: separated style.itemSeparator (itemChars style items) ++ [']']
  | object fields => '{' :: separated style.itemSeparator (fieldChars style fields) ++ ['}']

def itemChars (style : Style) : List Atom → List (List Char)
  | [] => []
  | item :: items => chars style item :: itemChars style items

def fieldChars (style : Style) : List (String × Atom) → List (List Char)
  | [] => []
  | (key, value) :: fields =>
    (key.toList ++ style.keySeparator ++ chars style value) :: fieldChars style fields

end

/-- Fields in a row, as they stand in an object or between the parentheses of arguments. -/
def fieldsChars (style : Style) (fields : List (String × Atom)) : List Char :=
  separated style.itemSeparator (fieldChars style fields)

def render (style : Style) (a : Atom) : String :=
  String.ofList (a.chars style)

/-! ### Reading values

The first character decides which kind of value is read. -/

open ReadM

def readKeyword (word : String) (value : Atom) : ReadM Atom := do
  let _ ← withHelp ("values starting with `t`, `f` or `n` are read as `true`, `false` " ++
    "or `null`, so enum values cannot start with those letters") (Token.keyword word)
  return value

/-- The number that a run of number characters writes: an integer if it can be one, else a finite
floating point number. -/
def ofNumber? (text : List Char) : Option Atom :=
  match Decimal.int64? text with
  | some n => some (int n)
  | none =>
    match Decimal.float? text with
    | some x => if x.isFinite then some (float x) else none
    | none => none

def readNumber : ReadM Atom := do
  let start ← get
  let text := start.run isNumberContinue
  set (start.skipRun isNumberContinue)
  match ofNumber? text with
  | some a => return a
  | none => failWith fun s => .invalidNumber (String.ofList text) (s.spanFrom start.position)

/-- Reads values up to the closing bracket. Each turn reads a character at least, so that more
turns than characters are never needed. -/
def readItems (item : ReadM Atom) (opening : Span) : (turns : Nat) → ReadM (List Atom)
  | 0 => failWith (·.unclosed "[" opening)
  | turns + 1 => do
    if (← Token.peekInside "[" opening) = ']' then return []
    else
      let a ← item
      let rest ← readItems item opening turns
      return a :: rest

def readList (item : ReadM Atom) : ReadM Atom := do
  let opening ← Token.literal "["
  let items ← readItems item opening ((← get).rest.length + 1)
  let _ ← Token.literal "]"
  return list items

/-- Reads fields up to the closing brace. The keys read so far are kept with their places, because
a key must not occur twice. -/
def readFields (value : ReadM Atom) (opening : Span) :
    (turns : Nat) → (seen : List (String × Span)) → ReadM (List (String × Atom))
  | 0, _ => failWith (·.unclosed "\x7b" opening)
  | turns + 1, seen => do
    if (← Token.peekInside "\x7b" opening) = '}' then return []
    else
      let start ← get
      let key ← Token.name
      let span := (← get).spanFrom start.position
      match seen.lookup key with
      | some first => failWith fun _ => .duplicateField key span first
      | none =>
        let _ ← Token.literal ":"
        let a ← value
        let rest ← readFields value opening turns ((key, span) :: seen)
        return (key, a) :: rest

def readObject (value : ReadM Atom) : ReadM Atom := do
  let opening ← Token.literal "\x7b"
  let fields ← readFields value opening ((← get).rest.length + 1) []
  let _ ← Token.literal "\x7d"
  return object fields

/-- Reads a value of at most `levels` levels, where `limit` is what an error reports. -/
def readWithin (limit : Nat) : (levels : Nat) → ReadM Atom
  | 0 => failWith fun s => .nestedTooDeep limit s.nextSpan
  | levels + 1 => do
    let c ← Token.peek "value"
    if isNumberStart c then readNumber
    else if c = '"' then return string (← Token.string)
    else if c = 't' then readKeyword "true" (bool true)
    else if c = 'f' then readKeyword "false" (bool false)
    else if c = 'n' then readKeyword "null" null
    else if c = '[' then readList (readWithin limit levels)
    else if c = '{' then readObject (readWithin limit levels)
    else
      match ← Token.name? with
      | some name => return enum name
      | none => failWith (·.unexpected ["value"])

def read (limit : Nat) : ReadM Atom :=
  readWithin limit limit

def parse (source : List Char) (options : ReadOptions := {}) : Except ReadError Atom :=
  ReadM.onText (do let a ← read options.depth; Token.finish; return a) source options.file

end QueryDoc.Atom
