import QueryDoc.Json.Encoding
import QueryDoc.Proofs.Json.Text
import QueryDoc.Proofs.Selection.Tidy

/-! Documents and their parts whose floating point numbers are all finite. Their encodings as JSON are of
the same sort, so that each of these numbers is written as one. -/

namespace QueryDoc

theorem Atom.induction {motive : Atom → Prop} (null : motive .null) (bool : ∀ b, motive (.bool b))
    (int : ∀ n, motive (.int n)) (float : ∀ x, motive (.float x))
    (string : ∀ text, motive (.string text)) (enum : ∀ name, motive (.enum name))
    (list : ∀ items, (∀ item ∈ items, motive item) → motive (.list items))
    (object : ∀ fields, (∀ field ∈ fields, motive field.2) → motive (.object fields)) (a : Atom) :
    motive a := by
  refine @Atom.rec motive (fun items => ∀ item ∈ items, motive item)
    (fun fields => ∀ field ∈ fields, motive field.2) (fun field => motive field.2)
    null bool int float string enum list object nofun ?_ nofun ?_ (fun _ _ h => h) a
  · exact fun _ _ h hs => List.forall_mem_cons.mpr ⟨h, hs⟩
  · exact fun _ _ h hs => List.forall_mem_cons.mpr ⟨h, hs⟩

mutual

/-- All floating point numbers in the value are finite. -/
def Atom.isFinite : Atom → Bool
  | .float x => x.isFinite
  | .list items => Atom.itemsFinite items
  | .object fields => Atom.fieldsFinite fields
  | _ => true

def Atom.itemsFinite : List Atom → Bool
  | [] => true
  | item :: items => item.isFinite && Atom.itemsFinite items

def Atom.fieldsFinite : List (String × Atom) → Bool
  | [] => true
  | (_, value) :: fields => value.isFinite && Atom.fieldsFinite fields

end

def Directive.isFinite (d : Directive) : Bool :=
  Atom.fieldsFinite d.arguments

mutual

def SelectionSet.isFinite : SelectionSet → Bool
  | ⟨fields, _⟩ => Field.eachFinite fields

def Field.isFinite : Field → Bool
  | ⟨_, _, arguments, directives, selectionSet⟩ =>
    Atom.fieldsFinite arguments && directives.all Directive.isFinite &&
      match selectionSet with
      | some set => set.isFinite
      | none => true

def Field.eachFinite : List Field → Bool
  | [] => true
  | field :: fields => field.isFinite && Field.eachFinite fields

end

def VariableDefinition.isFinite (v : VariableDefinition) : Bool :=
  v.defaultValue.all Atom.isFinite && v.directives.all Directive.isFinite

def Operation.isFinite (op : Operation) : Bool :=
  op.directives.all Directive.isFinite && op.selectionSet.isFinite &&
    op.variableDefinitions.all VariableDefinition.isFinite

def Node.isFinite : Node → Bool
  | atom a => a.isFinite
  | type _ => true
  | variableDefinition v => v.isFinite
  | operation op => op.isFinite
  | document d => d.definitions.all Operation.isFinite

theorem Atom.itemsToJson_eq_map (items : List Atom) : itemsToJson items = items.map toJson := by
  induction items with
  | nil => rfl
  | cons item items ih => rw [itemsToJson, ih, List.map_cons]

theorem Atom.fieldsToJson_eq_map (fields : List (String × Atom)) :
    fieldsToJson fields = fields.map fun field => (field.1, field.2.toJson) := by
  induction fields with
  | nil => rfl
  | cons field fields ih => rw [fieldsToJson, ih, List.map_cons]

theorem Field.eachToJson_eq_map (fields : List Field) :
    eachToJson fields = fields.map fun field => .tagged "Field" field.toJson := by
  induction fields with
  | nil => rfl
  | cons field fields ih => rw [eachToJson, ih, List.map_cons]

def optionalSetToJson (set : Option SelectionSet) : Json :=
  set.elim .null SelectionSet.toJson

theorem Field.toJson_eq (field : Field) : field.toJson = .object
    [("alias", optionalText field.aliasName), ("arguments", argumentsToJson field.arguments),
     ("directives", directivesToJson field.directives), ("name", .string field.name),
     ("selection_set", optionalSetToJson field.selectionSet)] := by
  obtain ⟨aliasName, name, arguments, directives, set⟩ := field
  cases set <;> rfl

theorem Atom.itemsFinite_iff {items : List Atom} :
    itemsFinite items = true ↔ ∀ item ∈ items, item.isFinite = true := by
  induction items with
  | nil => simp [itemsFinite]
  | cons item items ih => simp only [itemsFinite, Bool.and_eq_true, ih, List.forall_mem_cons]

theorem Atom.fieldsFinite_iff {fields : List (String × Atom)} :
    fieldsFinite fields = true ↔ ∀ field ∈ fields, field.2.isFinite = true := by
  induction fields with
  | nil => simp [fieldsFinite]
  | cons field fields ih => simp only [fieldsFinite, Bool.and_eq_true, ih, List.forall_mem_cons]

theorem Field.eachFinite_iff {fields : List Field} :
    eachFinite fields = true ↔ ∀ field ∈ fields, field.isFinite = true := by
  induction fields with
  | nil => simp [eachFinite]
  | cons field fields ih => simp only [eachFinite, Bool.and_eq_true, ih, List.forall_mem_cons]

theorem Field.isFinite_iff {field : Field} : field.isFinite = true ↔
    Atom.fieldsFinite field.arguments = true ∧ field.directives.all Directive.isFinite = true ∧
      ∀ set ∈ field.selectionSet, set.isFinite = true := by
  obtain ⟨aliasName, name, arguments, directives, set⟩ := field
  cases set with
  | none => simp [isFinite]
  | some set => simp [isFinite, and_assoc]

namespace Json

theorem isFinite_object_iff {members : List (String × Json)} :
    (object members).isFinite = true ↔ ∀ member ∈ members, member.2.isFinite = true := by
  rw [isFinite, membersFinite_iff]

theorem isFinite_array_iff {items : List Json} :
    (array items).isFinite = true ↔ ∀ item ∈ items, item.isFinite = true := by
  rw [isFinite, itemsFinite_iff]

theorem isFinite_tagged (tag : String) (value : Json) :
    (tagged tag value).isFinite = value.isFinite := by
  rw [tagged, isFinite, membersFinite, membersFinite, Bool.and_true]

end Json

theorem Atom.isFinite_fieldsToJson {fields : List (String × Atom)}
    (h : ∀ field ∈ fields, field.2.toJson.isFinite = true) :
    (Json.object (fieldsToJson fields)).isFinite = true := by
  rw [Json.isFinite_object_iff, fieldsToJson_eq_map, List.forall_mem_map]
  exact h

theorem Atom.isFinite_toJson {a : Atom} (h : a.isFinite = true) : a.toJson.isFinite = true := by
  induction a using Atom.induction with
  | list items ih =>
    rw [toJson, Json.isFinite_tagged, itemsToJson_eq_map, Json.isFinite_array_iff, List.forall_mem_map]
    exact fun item hm => ih item hm (itemsFinite_iff.mp h item hm)
  | object fields ih =>
    rw [toJson, Json.isFinite_tagged]
    exact isFinite_fieldsToJson fun field hm => ih field hm (fieldsFinite_iff.mp h field hm)
  | float x => rwa [toJson, Json.isFinite_tagged]
  | _ => rfl

theorem isFinite_argumentsToJson {arguments : List (String × Atom)}
    (h : Atom.fieldsFinite arguments = true) : (argumentsToJson arguments).isFinite = true :=
  Atom.isFinite_fieldsToJson fun field hm => Atom.isFinite_toJson (Atom.fieldsFinite_iff.mp h field hm)

theorem TypeRef.isFinite_toJson (t : TypeRef) : t.toJson.isFinite = true := by
  induction t with
  | named name => rfl
  | list inner ih => rwa [toJson, Json.isFinite_tagged]
  | nonNull inner ih => rwa [toJson, Json.isFinite_tagged]

theorem isFinite_optionalText (text : Option String) : (optionalText text).isFinite = true := by
  cases text <;> rfl

theorem Directive.isFinite_toJson {d : Directive} (h : d.isFinite = true) : d.toJson.isFinite = true := by
  simp only [toJson, Json.isFinite_object_iff, List.forall_mem_cons]
  exact ⟨rfl, isFinite_argumentsToJson h, nofun⟩

theorem isFinite_directivesToJson {directives : List Directive}
    (h : directives.all Directive.isFinite = true) : (directivesToJson directives).isFinite = true := by
  rw [directivesToJson, Json.isFinite_array_iff, List.forall_mem_map]
  exact fun d hd => d.isFinite_toJson (List.all_eq_true.mp h d hd)

theorem SelectionSet.isFinite_toJson {set : SelectionSet} (h : set.isFinite = true) :
    set.toJson.isFinite = true := by
  refine (@SelectionSet.induction (fun field => field.isFinite = true → field.toJson.isFinite = true)
    (fun set => set.isFinite = true → set.toJson.isFinite = true) ?_ ?_).1 set h
  · intro field ih h
    obtain ⟨harguments, hdirectives, hset⟩ := Field.isFinite_iff.mp h
    simp only [Field.toJson_eq, Json.isFinite_object_iff, List.forall_mem_cons]
    refine ⟨isFinite_optionalText field.aliasName, isFinite_argumentsToJson harguments,
      isFinite_directivesToJson hdirectives, rfl, ?_, nofun⟩
    cases hfield : field.selectionSet with
    | none => rfl
    | some set => exact ih set hfield (hset set hfield)
  · intro fields body ih h
    simp only [SelectionSet.toJson, Json.isFinite_object_iff, List.forall_mem_cons]
    refine ⟨?_, rfl, nofun⟩
    rw [Field.eachToJson_eq_map, Json.isFinite_array_iff, List.forall_mem_map]
    intro field hm
    rw [Json.isFinite_tagged]
    exact ih field hm (Field.eachFinite_iff.mp h field hm)

theorem VariableDefinition.isFinite_toJson {v : VariableDefinition} (h : v.isFinite = true) :
    v.toJson.isFinite = true := by
  obtain ⟨hdefault, hdirectives⟩ := Bool.and_eq_true_iff.mp h
  simp only [toJson, Json.isFinite_object_iff, List.forall_mem_cons]
  refine ⟨?_, isFinite_directivesToJson hdirectives, rfl, v.type.isFinite_toJson, nofun⟩
  cases hvalue : v.defaultValue with
  | none => rfl
  | some a =>
    rw [hvalue] at hdefault
    exact a.isFinite_toJson hdefault

theorem Operation.isFinite_toDefinitionJson {op : Operation} (h : op.isFinite = true) :
    op.toDefinitionJson.isFinite = true := by
  obtain ⟨hrest, hvariables⟩ := Bool.and_eq_true_iff.mp h
  obtain ⟨hdirectives, hset⟩ := Bool.and_eq_true_iff.mp hrest
  simp only [toDefinitionJson, Json.isFinite_tagged, toJson, Json.isFinite_object_iff,
    List.forall_mem_cons]
  refine ⟨isFinite_directivesToJson hdirectives, rfl, isFinite_optionalText op.name,
    op.selectionSet.isFinite_toJson hset, ?_, nofun⟩
  rw [Json.isFinite_array_iff, List.forall_mem_map]
  exact fun v hv => v.isFinite_toJson (List.all_eq_true.mp hvariables v hv)

theorem Document.isFinite_toJson {d : Document} (h : d.definitions.all Operation.isFinite = true) :
    d.toJson.isFinite = true := by
  simp only [toJson, Json.isFinite_object_iff, List.forall_mem_cons]
  refine ⟨?_, nofun⟩
  rw [Json.isFinite_array_iff, List.forall_mem_map]
  exact fun op hop => op.isFinite_toDefinitionJson (List.all_eq_true.mp h op hop)

theorem Node.isFinite_toJson {node : Node} (h : node.isFinite = true) : node.toJson.isFinite = true := by
  cases node with
  | atom a => rw [toJson, Json.isFinite_tagged, a.isFinite_toJson h]
  | type t => rw [toJson, Json.isFinite_tagged, t.isFinite_toJson]
  | variableDefinition v => rw [toJson, Json.isFinite_tagged, v.isFinite_toJson h]
  | operation op => rw [toJson, Json.isFinite_tagged, op.isFinite_toDefinitionJson h]
  | document d => rw [toJson, Json.isFinite_tagged, d.isFinite_toJson h]

end QueryDoc
