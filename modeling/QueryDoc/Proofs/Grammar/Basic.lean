import QueryDoc.Atom
import QueryDoc.Decimal.Literal
import QueryDoc.Document
import QueryDoc.Proofs.Source.Ignored
import QueryDoc.Text.Layout

/-! The grammar of documents. Each relation says that a text begins with a phrase of some kind, what
the phrase denotes, and what is left of the text after it. Ignored input may stand before every
token. A name or a number goes on as long as it can, which is the only look ahead there is. -/

namespace QueryDoc

structure SpellsName (input : List Char) (name : String) (rest : List Char) : Prop where
  isName : isName name.toList = true
  ends : EndsRun isNameContinue rest
  spelled : Ignored input (name.toList ++ rest)

/-- A run of number characters is an integer if it can be one, else a finite floating point number. -/
inductive SpellsNumber (text : List Char) : Atom → Prop
  | int {n : Int64} : Decimal.int64? text = some n → SpellsNumber text (.int n)
  | float {x : Binary64} : Decimal.int64? text = none → Decimal.float? text = some x →
      x.isFinite = true → SpellsNumber text (.float x)

/-- The names that are values of their own. Those that begin like `true`, `false` or `null` are not. -/
def isEnumName (name : List Char) : Bool :=
  match name with
  | [] => false
  | c :: _ => isName name && !(c == 't' || c == 'f' || c == 'n')

/-- Phrases in a row, without any separator but ignored input. -/
inductive SpellsEach {α : Type} (item : List Char → α → List Char → Prop) :
    List Char → List α → List Char → Prop
  | nil (rest : List Char) : SpellsEach item rest [] rest
  | cons {input mid rest : List Char} {a : α} {as : List α} :
      item input a mid → SpellsEach item mid as rest → SpellsEach item input (a :: as) rest

inductive SpellsFields (value : List Char → Atom → List Char → Prop) :
    List Char → List (String × Atom) → List Char → Prop
  | nil (rest : List Char) : SpellsFields value rest [] rest
  | cons {input colon start mid rest : List Char} {key : String} {a : Atom}
      {fields : List (String × Atom)} :
      SpellsName input key colon → Ignored colon (':' :: start) → value start a mid →
      SpellsFields value mid fields rest → SpellsFields value input ((key, a) :: fields) rest

inductive SpellsAtom : List Char → Atom → List Char → Prop
  | number {input rest text : List Char} {c : Char} {a : Atom} :
      Ignored input (c :: (text ++ rest)) → isNumberStart c = true →
      (∀ d ∈ text, isNumberContinue d = true) → EndsRun isNumberContinue rest →
      SpellsNumber (c :: text) a → SpellsAtom input a rest
  | string {input rest : List Char} {text : String} :
      Ignored input ('"' :: (text.toList ++ '"' :: rest)) → '"' ∉ text.toList →
      SpellsAtom input (.string text) rest
  | boolTrue {input rest : List Char} :
      SpellsName input "true" rest → SpellsAtom input (.bool true) rest
  | boolFalse {input rest : List Char} :
      SpellsName input "false" rest → SpellsAtom input (.bool false) rest
  | null {input rest : List Char} : SpellsName input "null" rest → SpellsAtom input .null rest
  | enum {input rest : List Char} {name : String} :
      SpellsName input name rest → isEnumName name.toList = true →
      SpellsAtom input (.enum name) rest
  | list {input inner after rest : List Char} {items : List Atom} :
      Ignored input ('[' :: inner) → SpellsEach SpellsAtom inner items after →
      Ignored after (']' :: rest) → SpellsAtom input (.list items) rest
  | object {input inner after rest : List Char} {fields : List (String × Atom)} :
      Ignored input ('{' :: inner) → SpellsFields SpellsAtom inner fields after →
      (fields.map Prod.fst).Nodup → Ignored after ('}' :: rest) →
      SpellsAtom input (.object fields) rest

inductive SpellsType : List Char → TypeRef → List Char → Prop
  | named {input rest : List Char} {name : String} :
      SpellsName input name rest → SpellsType input (.named name) rest
  | list {input inner after rest : List Char} {t : TypeRef} :
      Ignored input ('[' :: inner) → SpellsType inner t after → Ignored after (']' :: rest) →
      SpellsType input (.list t) rest
  | nonNull {input mid rest : List Char} {t : TypeRef} :
      SpellsType input t mid → t.isNonNull = false → Ignored mid ('!' :: rest) →
      SpellsType input (.nonNull t) rest

inductive SpellsDefault : List Char → Option Atom → List Char → Prop
  | absent (rest : List Char) : SpellsDefault rest none rest
  | given {input start rest : List Char} {a : Atom} :
      Ignored input ('=' :: start) → SpellsAtom start a rest → SpellsDefault input (some a) rest

/-- A variable definition. Directives after it are not read, so none may follow. -/
inductive SpellsVariable : List Char → VariableDefinition → List Char → Prop
  | mk {input start colon type default rest : List Char} {name : String} {t : TypeRef}
      {value : Option Atom} :
      Ignored input ('$' :: start) → SpellsName start name colon → Ignored colon (':' :: type) →
      SpellsType type t default → SpellsDefault default value rest →
      (significant rest).head? ≠ some '@' →
      SpellsVariable input { name, type := t, defaultValue := value } rest

/-- Variable definitions in parentheses, which are left out if there are none. -/
inductive SpellsVariables : List Char → List VariableDefinition → List Char → Prop
  | absent (rest : List Char) : SpellsVariables rest [] rest
  | given {input inner after rest : List Char} {v : VariableDefinition}
      {vs : List VariableDefinition} :
      Ignored input ('(' :: inner) → SpellsEach SpellsVariable inner (v :: vs) after →
      Ignored after (')' :: rest) → SpellsVariables input (v :: vs) rest

/-- What says the kind and the name of an operation. A name that is no keyword is the name of a
query, but a word that begins a fragment is not. -/
inductive SpellsHeader : List Char → OperationKind → Option String → List Char → Prop
  | absent (rest : List Char) : SpellsHeader rest .query none rest
  | keyword {input rest : List Char} {kind : OperationKind} :
      SpellsName input kind.keyword rest → SpellsHeader input kind none rest
  | named {input mid rest : List Char} {kind : OperationKind} {name : String} :
      SpellsName input kind.keyword mid → SpellsName mid name rest →
      SpellsHeader input kind (some name) rest
  | bareName {input rest : List Char} {name : String} :
      SpellsName input name rest → OperationKind.ofKeyword? name = none → name ≠ "fragment" →
      SpellsHeader input .query (some name) rest

/-- The inside of a selection set: braces are balanced but for those in strings and in comments. A
comment goes on to the end of its line. -/
inductive Balanced : List Char → Prop
  | nil : Balanced []
  | plain {c : Char} {cs : List Char} :
      c ∉ ['{', '}', '"', '#'] → Balanced cs → Balanced (c :: cs)
  | string {text cs : List Char} :
      '"' ∉ text → Balanced cs → Balanced ('"' :: (text ++ '"' :: cs))
  | comment {text cs : List Char} {c : Char} :
      (∀ d ∈ text, isLineEnd d = false) → isLineEnd c = true → Balanced cs →
      Balanced ('#' :: (text ++ c :: cs))
  | group {inner cs : List Char} :
      Balanced inner → Balanced cs → Balanced ('{' :: (inner ++ '}' :: cs))

/-- An operation. Its selection set is kept as the text between the braces, trimmed. Directives
before the selection set are not read, so none may stand there. -/
inductive SpellsOperation : List Char → Operation → List Char → Prop
  | mk {input vars brace body rest : List Char} {kind : OperationKind} {name : Option String}
      {vs : List VariableDefinition} :
      SpellsHeader input kind name vars → SpellsVariables vars vs brace →
      Ignored brace ('{' :: (body ++ '}' :: rest)) → Balanced body →
      SpellsOperation input
        { kind, name, variableDefinitions := vs,
          selectionSet := .ofBody (String.ofList (Text.trim body)) } rest

inductive SpellsDocument (source : List Char) : Document → Prop
  | mk {rest : List Char} {op : Operation} :
      SpellsOperation source op rest → Ignored rest [] → SpellsDocument source { definitions := [op] }

end QueryDoc
