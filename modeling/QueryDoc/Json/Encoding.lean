import QueryDoc.Document
import QueryDoc.Json.Basic

/-! Documents and their parts as JSON. A value that may be of several kinds is tagged with its
kind, and the members of an object stand in a fixed order. -/

namespace QueryDoc

mutual

def Atom.toJson : Atom → Json
  | .null => .string "Null"
  | .bool b => .tagged "Boolean" (.bool b)
  | .int n => .tagged "Int" (.int n.toInt)
  | .float x => .tagged "Float" (.float x)
  | .string text => .tagged "String" (.string text)
  | .enum name => .tagged "Enum" (.string name)
  | .list items => .tagged "List" (.array (Atom.itemsToJson items))
  | .object fields => .tagged "Object" (.object (Atom.fieldsToJson fields))

def Atom.itemsToJson : List Atom → List Json
  | [] => []
  | item :: items => item.toJson :: Atom.itemsToJson items

def Atom.fieldsToJson : List (String × Atom) → List (String × Json)
  | [] => []
  | (key, value) :: fields => (key, value.toJson) :: Atom.fieldsToJson fields

end

def TypeRef.toJson : TypeRef → Json
  | named name => .tagged "Named" (.string name)
  | list inner => .tagged "List" inner.toJson
  | nonNull inner => .tagged "NonNull" inner.toJson

def optionalText : Option String → Json
  | some text => .string text
  | none => .null

def argumentsToJson (arguments : List (String × Atom)) : Json :=
  .object (Atom.fieldsToJson arguments)

def Directive.toJson (d : Directive) : Json :=
  .object [("name", .string d.name), ("arguments", argumentsToJson d.arguments)]

def directivesToJson (directives : List Directive) : Json :=
  .array (directives.map Directive.toJson)

mutual

def SelectionSet.toJson : SelectionSet → Json
  | ⟨fields, body⟩ =>
    .object [("selections", .array (Field.eachToJson fields)), ("unparsed_body", .string body)]

def Field.toJson : Field → Json
  | ⟨aliasName, name, arguments, directives, selectionSet⟩ =>
    .object
      [("alias", optionalText aliasName),
       ("arguments", argumentsToJson arguments),
       ("directives", directivesToJson directives),
       ("name", .string name),
       ("selection_set",
        match selectionSet with
        | some set => set.toJson
        | none => .null)]

/-- The fields of a selection set as its selections. -/
def Field.eachToJson : List Field → List Json
  | [] => []
  | field :: fields => .tagged "Field" field.toJson :: Field.eachToJson fields

end

def VariableDefinition.toJson (v : VariableDefinition) : Json :=
  .object
    [("default_value",
      match v.defaultValue with
      | some value => value.toJson
      | none => .null),
     ("directives", directivesToJson v.directives),
     ("name", .string v.name),
     ("var_type", v.type.toJson)]

def OperationKind.tag : OperationKind → String
  | query => "Query"
  | mutation => "Mutation"
  | subscription => "Subscription"

def Operation.toJson (op : Operation) : Json :=
  .object
    [("directives", directivesToJson op.directives),
     ("kind", .string op.kind.tag),
     ("name", optionalText op.name),
     ("selection_set", op.selectionSet.toJson),
     ("variable_definitions", .array (op.variableDefinitions.map VariableDefinition.toJson))]

def Operation.toDefinitionJson (op : Operation) : Json :=
  .tagged "OperationDefinition" op.toJson

def Document.toJson (d : Document) : Json :=
  .object [("definitions", .array (d.definitions.map Operation.toDefinitionJson))]

def Node.toJson : Node → Json
  | atom a => .tagged "Atom" a.toJson
  | type t => .tagged "Type" t.toJson
  | variableDefinition v => .tagged "VariableDefinition" v.toJson
  | operation op => .tagged "Definition" op.toDefinitionJson
  | document d => .tagged "Document" d.toJson

end QueryDoc
