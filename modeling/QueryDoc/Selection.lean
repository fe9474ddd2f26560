import QueryDoc.Atom
import QueryDoc.Reading.Token
import QueryDoc.Text.Layout

/-! Directives, fields and selection sets. -/

namespace QueryDoc

structure Directive where
  name : String
  arguments : List (String × Atom)
deriving Inhabited, Repr

mutual

structure Field where
  aliasName : Option String
  name : String
  arguments : List (String × Atom)
  directives : List Directive
  selectionSet : Option SelectionSet

/-- What stands between the braces of an operation or a field: fields, followed by a text that is
kept as it stands. A selection set that has been read consists of the text alone. -/
structure SelectionSet where
  fields : List Field
  body : String

end

instance : Inhabited SelectionSet := ⟨⟨[], ""⟩⟩

instance : Inhabited Field := ⟨⟨none, "", [], [], none⟩⟩

def Directive.same (a b : Directive) : Bool :=
  a.name == b.name && (Atom.object a.arguments).same (.object b.arguments)

def Directive.sameAll : List Directive → List Directive → Bool
  | [], [] => true
  | a :: as, b :: bs => a.same b && sameAll as bs
  | _, _ => false

namespace SelectionSet

def ofBody (body : String) : SelectionSet :=
  { fields := [], body }

def isEmpty (s : SelectionSet) : Bool :=
  s.fields.isEmpty && s.body.isEmpty

end SelectionSet

mutual

def Field.same : Field → Field → Bool
  | ⟨aliasA, nameA, argumentsA, directivesA, setA⟩,
    ⟨aliasB, nameB, argumentsB, directivesB, setB⟩ =>
    aliasA == aliasB && nameA == nameB &&
    (Atom.object argumentsA).same (.object argumentsB) &&
    Directive.sameAll directivesA directivesB &&
    (match setA, setB with
      | none, none => true
      | some a, some b => a.same b
      | _, _ => false)

def Field.sameAll : List Field → List Field → Bool
  | [], [] => true
  | a :: as, b :: bs => a.same b && Field.sameAll as bs
  | _, _ => false

def SelectionSet.same : SelectionSet → SelectionSet → Bool
  | ⟨fieldsA, bodyA⟩, ⟨fieldsB, bodyB⟩ => Field.sameAll fieldsA fieldsB && bodyA == bodyB

end

/-! ### Writing directives, fields and selection sets -/

/-- Arguments in parentheses, or nothing without arguments. -/
def argumentsChars (style : Style) (arguments : List (String × Atom)) : List Char :=
  if arguments.isEmpty then [] else '(' :: Atom.fieldsChars style arguments ++ [')']

def Directive.chars (style : Style) (d : Directive) : List Char :=
  '@' :: d.name.toList ++ argumentsChars style d.arguments

def directivesChars (style : Style) (directives : List Directive) : List Char :=
  directives.flatMap fun d => ' ' :: d.chars style

/-- Whether the last line of a text may end in a comment, which would swallow a brace after it. -/
def endsInComment (body : List Char) : Bool :=
  match (Text.lines body).getLast? with
  | some line => line.contains '#'
  | none => false

mutual

def SelectionSet.chars (style : Style) : SelectionSet → List Char
  | ⟨fields, body⟩ =>
    if fields.isEmpty && body.isEmpty then ['{', '}']
    else
      let parts := Field.charsEach style fields ++ if body.isEmpty then [] else [body.toList]
      '{' :: style.gap ++ separated [' '] parts ++
        (if endsInComment body.toList then ['\n'] else style.gap) ++ ['}']

def Field.chars (style : Style) : Field → List Char
  | ⟨aliasName, name, arguments, directives, selectionSet⟩ =>
    (match aliasName with
      | some label => label.toList ++ style.keySeparator
      | none => []) ++
    name.toList ++ argumentsChars style arguments ++ directivesChars style directives ++
    (match selectionSet with
      | some set => style.gap ++ set.chars style
      | none => [])

def Field.charsEach (style : Style) : List Field → List (List Char)
  | [] => []
  | field :: fields => field.chars style :: Field.charsEach style fields

end

end QueryDoc

/-! ### Reading selection sets

They are only balanced, and their text is kept. -/

namespace QueryDoc.SelectionSet

open ReadM

/-- Passes over the inside of a selection set up to the brace that closes it, with `depth` braces
open inside it. Braces in strings and in comments do not count. Each turn passes over a character at
least, so that more turns than characters are never needed. -/
def skipBody (opening : Span) : (turns : Nat) → (depth : Nat) → ReadM Unit
  | 0, _ => failWith (·.unclosed "\x7b" opening)
  | turns + 1, depth => do
    match (← get).peek? with
    | none => failWith (·.unclosed "\x7b" opening)
    | some '{' =>
      modify Scanner.advance
      skipBody opening turns (depth + 1)
    | some '}' =>
      match depth with
      | 0 => return ()
      | depth + 1 =>
        modify Scanner.advance
        skipBody opening turns depth
    | some '"' =>
      let _ ← Token.string
      skipBody opening turns depth
    | some '#' =>
      modify Scanner.skipComment
      skipBody opening turns depth
    | some _ =>
      modify Scanner.advance
      skipBody opening turns depth

/-- Reads a selection set and keeps the trimmed text between its braces. -/
def read : ReadM SelectionSet := do
  let opening ← Token.literal "\x7b"
  let inside := (← get).rest
  skipBody opening (inside.length + 1) 0
  let body := inside.take (inside.length - (← get).rest.length)
  let _ ← Token.literal "\x7d"
  return .ofBody (String.ofList (Text.trim body))

end QueryDoc.SelectionSet
