import QueryDoc.Document
import QueryDoc.Log

/-! What reading a document logs. -/

namespace QueryDoc

/-- A form that is recognised but not read is logged when it is refused. -/
def ReadError.records (e : ReadError) : List Log.Record :=
  match e.cause.feature? with
  | some feature => [⟨.debug, s!"Rejecting unsupported syntax: {feature.describe}."⟩]
  | none => []

def Operation.record (op : Operation) : Log.Record :=
  let name := match op.name with
    | some name => s!"Some({Text.quoted name})"
    | none => "None"
  ⟨.trace, s!"Read {op.kind.keyword} operation {name} with {op.variableDefinitions.length} " ++
    "variable definition(s)."⟩

/-- The records of reading a text. An operation that was read is logged even if more follows it
than a document may hold. -/
def Document.records (source : List Char) (options : ReadOptions := {}) : List Log.Record :=
  match Operation.read options.depth (Scanner.start source options.file) with
  | .error e _ => e.records
  | .ok op s =>
    op.record ::
      match Document.finish s with
      | .error e _ => e.records
      | .ok _ _ => []

end QueryDoc
