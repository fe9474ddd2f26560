import QueryDoc.Reading.Token

/-! References to types: a name, possibly inside lists, and each of these possibly non-null. -/

namespace QueryDoc

inductive TypeRef where
  | named (name : String)
  | list (inner : TypeRef)
  | nonNull (inner : TypeRef)
deriving DecidableEq, Repr, Inhabited

/-- A type reference reduced to its innermost name and two flags for its outermost wrappers. -/
structure FlatType where
  name : String
  isList : Bool
  isNonNull : Bool
deriving DecidableEq, Repr

namespace TypeRef

def innermostName : TypeRef → String
  | named name => name
  | list inner => inner.innermostName
  | nonNull inner => inner.innermostName

def isNonNull : TypeRef → Bool
  | nonNull _ => true
  | _ => false

/-- Whether a type is a list once an outer non-null wrapper is taken off. -/
def isList : TypeRef → Bool
  | list _ => true
  | nonNull (list _) => true
  | _ => false

/-- The wrappers of list items are lost. -/
def flatten (t : TypeRef) : FlatType :=
  { name := t.innermostName, isList := t.isList, isNonNull := t.isNonNull }

def chars : TypeRef → List Char
  | named name => name.toList
  | list inner => '[' :: inner.chars ++ [']']
  | nonNull inner => inner.chars ++ ['!']

end TypeRef

end QueryDoc

/-! ### Reading references to types -/

namespace QueryDoc.TypeRef

open ReadM

/-- Reads a type of at most `levels` levels, where `limit` is what an error reports. -/
def readWithin (limit : Nat) : (levels : Nat) → ReadM TypeRef
  | 0 => failWith fun s => .nestedTooDeep limit s.nextSpan
  | levels + 1 => do
    let base ←
      if (← Token.peek "type") = '[' then do
        let opening ← Token.literal "["
        let inner ← readWithin limit levels
        let _ ← Token.peekInside "[" opening
        let _ ← Token.literal "]"
        pure (list inner)
      else do
        let name ← withHelp "a type is a name like `Int` or a list type like `[Int]`" Token.name
        pure (named name)
    if (← Token.peek?) = some '!' then
      let _ ← Token.literal "!"
      return nonNull base
    else return base

/-- Reads a type whose lists nest less deep than `limit`. A second exclamation mark after a type is
left to whoever reads on. -/
def read (limit : Nat) : ReadM TypeRef :=
  readWithin limit limit

def parse (source : List Char) (options : ReadOptions := {}) : Except ReadError TypeRef :=
  ReadM.onText (do let t ← read options.depth; Token.finish; return t) source options.file

end QueryDoc.TypeRef
