import QueryDoc.Atom
import QueryDoc.Selection
import QueryDoc.TypeRef

/-! Definitions of the variables of an operation. -/

namespace QueryDoc

structure VariableDefinition where
  name : String
  type : TypeRef
  defaultValue : Option Atom := none
  directives : List Directive := []
deriving Inhabited, Repr

def VariableDefinition.same (a b : VariableDefinition) : Bool :=
  a.name == b.name && a.type == b.type &&
  (match a.defaultValue, b.defaultValue with
    | none, none => true
    | some v, some w => v.same w
    | _, _ => false) &&
  Directive.sameAll a.directives b.directives

/-! ### Writing variable definitions -/

def VariableDefinition.chars (style : Style) (v : VariableDefinition) : List Char :=
  '$' :: v.name.toList ++ style.keySeparator ++ v.type.chars ++
    (match v.defaultValue with
      | some value => style.defaultSeparator ++ value.chars style
      | none => []) ++
    directivesChars style v.directives

end QueryDoc

/-! ### Reading variable definitions -/

namespace QueryDoc.VariableDefinition

open ReadM

/-- Reads a name with its dollar sign, a type and possibly a default value. -/
def read (limit : Nat) : ReadM VariableDefinition := do
  let _ ← Token.literal "$"
  let name ← Token.name
  let _ ← withHelp "variable definitions look like `$name: Type`" (Token.literal ":")
  let type ← TypeRef.read limit
  let defaultValue ←
    if (← Token.peek?) = some '=' then do
      let _ ← Token.literal "="
      let value ← Atom.read limit
      pure (some value)
    else pure none
  if (← Token.peek?) = some '@' then unsupportedHere .variableDirectives
  else return { name, type, defaultValue }

/-- Reads variable definitions up to the closing parenthesis. Each turn reads a character at least,
so that more turns than characters are never needed. -/
def readEach (limit : Nat) (opening : Span) : (turns : Nat) → ReadM (List VariableDefinition)
  | 0 => failWith (·.unclosed "(" opening)
  | turns + 1 => do
    if (← Token.peekInside "(" opening) = ')' then return []
    else
      let v ← read limit
      let rest ← readEach limit opening turns
      return v :: rest

/-- Reads variable definitions in parentheses. There is at least one. -/
def readList (limit : Nat) : ReadM (List VariableDefinition) := do
  let opening ← Token.literal "("
  if (← Token.peekInside "(" opening) = ')' then
    failWith fun s => .emptyVariables s.nextSpan
  else
    let definitions ← readEach limit opening ((← get).rest.length + 1)
    let _ ← Token.literal ")"
    return definitions

end QueryDoc.VariableDefinition
