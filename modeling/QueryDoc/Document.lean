import QueryDoc.Operation

/-! Documents. -/

namespace QueryDoc

/-- A document that has been read has exactly one definition. -/
structure Document where
  definitions : List Operation
deriving Inhabited

/-- Whether two documents are the same up to what `Atom.same` leaves open. -/
def Document.same (a b : Document) : Bool :=
  a.definitions.length == b.definitions.length &&
  (a.definitions.zip b.definitions).all fun pair => pair.1.same pair.2

/-- Anything that is read and written as a unit. -/
inductive Node where
  | atom (value : Atom)
  | type (value : TypeRef)
  | variableDefinition (value : VariableDefinition)
  | operation (value : Operation)
  | document (value : Document)

def Node.kindName : Node → String
  | atom a => a.kindName
  | type _ => "type"
  | variableDefinition _ => "variable definition"
  | operation _ => "definition"
  | document _ => "document"

/-! ### Writing documents -/

namespace Document

def chars (style : Style) (d : Document) : List Char :=
  separated style.definitionSeparator (d.definitions.map (·.chars style))

def render (style : Style) (d : Document) : String :=
  String.ofList (d.chars style)

end Document

namespace Node

def chars (style : Style) : Node → List Char
  | atom a => a.chars style
  | type t => t.chars
  | variableDefinition v => v.chars style
  | operation op => op.chars style
  | document d => d.chars style

def render (style : Style) (n : Node) : String :=
  String.ofList (n.chars style)

end Node

end QueryDoc

/-! ### Reading documents -/

namespace QueryDoc.Document

open ReadM

/-- Stops unless nothing but ignored input is left after a definition. -/
def finish : ReadM Unit := do
  match ← Token.peek? with
  | none => return ()
  | some c =>
    if c = '{' ∨ isNameStart c then
      failWith fun s => (ReadError.unsupported .multipleDefinitions s.nextSpan).addNote
        "only the first definition of a document is read"
    else
      failWith fun s =>
        let e := s.unexpected ["end of input"]
        if isPunctuator c then e.addNote s!"`{c}` does not start a definition" else e

def read (limit : Nat) : ReadM Document := do
  let op ← Operation.read limit
  finish
  return { definitions := [op] }

def parse (source : List Char) (options : ReadOptions := {}) : Except ReadError Document :=
  ReadM.onText (read options.depth) source options.file

end QueryDoc.Document
