import QueryDoc.Selection
import QueryDoc.Variable

/-! Operations. -/

namespace QueryDoc

inductive OperationKind where
  | query
  | mutation
  | subscription
deriving DecidableEq, Repr

/-- An operation without a keyword is a query. -/
instance : Inhabited OperationKind := ⟨.query⟩

namespace OperationKind

def keyword : OperationKind → String
  | query => "query"
  | mutation => "mutation"
  | subscription => "subscription"

def ofKeyword? (word : String) : Option OperationKind :=
  if word = "query" then some query
  else if word = "mutation" then some mutation
  else if word = "subscription" then some subscription
  else none

theorem ofKeyword?_eq_some_iff {word : String} {kind : OperationKind} :
    ofKeyword? word = some kind ↔ word = kind.keyword := by
  unfold ofKeyword?
  constructor
  · intro h
    split at h
    · cases h; assumption
    · split at h
      · cases h; assumption
      · split at h
        · cases h; assumption
        · cases h
  · rintro rfl
    cases kind <;> simp [keyword]

end OperationKind

structure Operation where
  kind : OperationKind := .query
  name : Option String := none
  variableDefinitions : List VariableDefinition := []
  directives : List Directive := []
  selectionSet : SelectionSet
deriving Inhabited

namespace Operation

/-- Whether a selection set alone says all there is to an operation. -/
def isShorthand (op : Operation) : Bool :=
  op.kind == .query && op.name.isNone && op.variableDefinitions.isEmpty && op.directives.isEmpty

def same (a b : Operation) : Bool :=
  a.kind == b.kind && a.name == b.name &&
  a.variableDefinitions.length == b.variableDefinitions.length &&
  ((a.variableDefinitions.zip b.variableDefinitions).all fun pair => pair.1.same pair.2) &&
  Directive.sameAll a.directives b.directives && a.selectionSet.same b.selectionSet

end Operation

end QueryDoc

/-! ### Writing operations -/

namespace QueryDoc.Operation

/-- What stands before the selection set of an operation that is no shorthand. -/
def headerChars (style : Style) (op : Operation) : List Char :=
  op.kind.keyword.toList ++
    (match op.name with
      | some name => ' ' :: name.toList
      | none => []) ++
    (if op.variableDefinitions.isEmpty then []
      else
        '(' :: separated style.itemSeparator (op.variableDefinitions.map (·.chars style)) ++
          [')']) ++
    directivesChars style op.directives ++ style.gap

def chars (style : Style) (op : Operation) : List Char :=
  (if op.isShorthand then [] else op.headerChars style) ++ op.selectionSet.chars style

/-! ### Reading operations -/

open ReadM

/-- Reads an operation keyword if one stands here. Any other name is left in place: it is the name
of a query without a keyword. -/
def readKind : ReadM OperationKind := do
  let start ← get
  match start.name? with
  | none => return .query
  | some word =>
    if word = "fragment".toList then
      set (start.skipRun isNameContinue)
      failWith fun s => .unsupported .fragmentDefinitions (s.spanFrom start.position)
    else
      match OperationKind.ofKeyword? (String.ofList word) with
      | some kind =>
        let _ ← Token.keyword kind.keyword
        return kind
      | none => return .query

def read (limit : Nat) : ReadM Operation := do
  let _ ← Token.peek "operation definition"
  let kind ← readKind
  let name ← Token.name?
  let variableDefinitions ←
    if (← Token.peek?) = some '(' then VariableDefinition.readList limit else pure []
  if (← Token.peek?) = some '@' then unsupportedHere .operationDirectives
  else
    let selectionSet ← SelectionSet.read
    return { kind, name, variableDefinitions, selectionSet }

end QueryDoc.Operation
