import Mathlib.Data.List.Forall2
import QueryDoc.Proofs.Json.Finite

/-! Encoding documents and their parts as JSON loses nothing. Each kind of thing is told by its tag or by
the sort of JSON value that it becomes, also where a key that may be chosen freely is a tag. -/

namespace QueryDoc

theorem forall₂_of_map_eq {α β : Type} {f : α → β} {same : α → α → Prop} {as bs : List α}
    (hf : ∀ a ∈ as, ∀ b, f a = f b → same a b) (h : as.map f = bs.map f) :
    List.Forall₂ same as bs := by
  induction as generalizing bs with
  | nil =>
    obtain rfl := List.map_eq_nil_iff.mp h.symm
    exact .nil
  | cons a as ih =>
    cases bs with
    | nil => cases h
    | cons b bs =>
      obtain ⟨hhead, htail⟩ := List.cons.inj h
      exact .cons (hf a List.mem_cons_self b hhead)
        (ih (fun a hm => hf a (List.mem_cons_of_mem _ hm)) htail)

theorem eq_of_map_eq {α β : Type} {f : α → β} {as bs : List α}
    (hf : ∀ a ∈ as, ∀ b, f a = f b → a = b) (h : as.map f = bs.map f) : as = bs :=
  List.forall₂_eq_eq_eq ▸ forall₂_of_map_eq hf h

/-- What may be absent is told from what is there if nothing is encoded as nothing. -/
theorem optional_rel {α : Type} {encode : α → Json} {same : α → α → Prop}
    (hnull : ∀ a, encode a ≠ .null) {x y : Option α}
    (hx : ∀ a ∈ x, ∀ b, encode a = encode b → same a b)
    (h : x.elim .null encode = y.elim .null encode) : Option.Rel same x y := by
  cases x with
  | none =>
    cases y with
    | none => exact .none
    | some b => exact absurd h.symm (hnull b)
  | some a =>
    cases y with
    | none => exact absurd h (hnull a)
    | some b => exact .some (hx a rfl b h)

theorem optional_inj {α : Type} {encode : α → Json} (hnull : ∀ a, encode a ≠ .null) {x y : Option α}
    (hx : ∀ a ∈ x, ∀ b, encode a = encode b → a = b) (h : x.elim .null encode = y.elim .null encode) :
    x = y := by
  cases optional_rel hnull hx h with
  | none => rfl
  | some heq => rw [heq]

theorem optionalText_eq_elim (text : Option String) : optionalText text = text.elim .null .string := by
  cases text <;> rfl

theorem optionalText_inj {text text' : Option String} (h : optionalText text = optionalText text') :
    text = text' := by
  rw [optionalText_eq_elim, optionalText_eq_elim] at h
  have hnull : ∀ text : String, Json.string text ≠ .null := nofun
  exact optional_inj hnull (fun _ _ _ heq => Json.string.inj heq) h

namespace Json

@[simp] theorem tagged_eq_iff {tag tag' : String} {value value' : Json} :
    tagged tag value = tagged tag' value' ↔ tag = tag' ∧ value = value' := by
  simp [tagged]

@[simp] theorem tagged_ne_string (tag : String) (value : Json) (text : String) :
    tagged tag value ≠ string text :=
  nofun

@[simp] theorem string_ne_tagged (tag : String) (value : Json) (text : String) :
    string text ≠ tagged tag value :=
  nofun

end Json

theorem Atom.fieldsToJson_inj {fields fields' : List (String × Atom)}
    (hfields : ∀ field ∈ fields, ∀ b, field.2.toJson = b.toJson → field.2 = b)
    (h : fieldsToJson fields = fieldsToJson fields') : fields = fields' := by
  rw [fieldsToJson_eq_map, fieldsToJson_eq_map] at h
  refine eq_of_map_eq (fun field hm field' heq => ?_) h
  obtain ⟨hkey, hvalue⟩ := Prod.mk.inj heq
  exact Prod.ext hkey (hfields field hm field'.2 hvalue)

theorem Atom.toJson_inj {a b : Atom} (h : a.toJson = b.toJson) : a = b := by
  induction a using Atom.induction generalizing b with
  | list items ih =>
    cases b with
    | list items' =>
      have hitems : itemsToJson items = itemsToJson items' := by simpa [toJson] using h
      rw [itemsToJson_eq_map, itemsToJson_eq_map] at hitems
      rw [eq_of_map_eq (fun item hm item' heq => ih item hm heq) hitems]
    | _ => simp [toJson] at h
  | object fields ih =>
    cases b with
    | object fields' =>
      have hfields : fieldsToJson fields = fieldsToJson fields' := by
        simpa [toJson] using h
      rw [fieldsToJson_inj (fun field hm b heq => ih field hm heq) hfields]
    | _ => simp [toJson] at h
  | int n =>
    cases b with
    | int m =>
      have hn : n.toInt = m.toInt := by simpa [toJson] using h
      rw [Int64.toInt_inj.mp hn]
    | _ => simp [toJson] at h
  | _ => cases b <;> simp_all [toJson]

theorem argumentsToJson_inj {arguments arguments' : List (String × Atom)}
    (h : argumentsToJson arguments = argumentsToJson arguments') : arguments = arguments' :=
  Atom.fieldsToJson_inj (fun _ _ _ heq => Atom.toJson_inj heq) (Json.object.inj h)

theorem TypeRef.toJson_inj {t u : TypeRef} (h : t.toJson = u.toJson) : t = u := by
  induction t generalizing u with
  | named name => cases u <;> simp_all [toJson]
  | list inner ih =>
    cases u with
    | list inner' => rw [ih (by simpa [toJson] using h)]
    | _ => simp [toJson] at h
  | nonNull inner ih =>
    cases u with
    | nonNull inner' => rw [ih (by simpa [toJson] using h)]
    | _ => simp [toJson] at h

theorem Directive.toJson_inj {d e : Directive} (h : d.toJson = e.toJson) : d = e := by
  obtain ⟨name, arguments⟩ := d
  obtain ⟨name', arguments'⟩ := e
  simp only [toJson, Json.object.injEq, List.cons.injEq, Prod.mk.injEq, Json.string.injEq, true_and,
    and_true] at h
  rw [h.1, argumentsToJson_inj h.2]

theorem directivesToJson_inj {directives directives' : List Directive}
    (h : directivesToJson directives = directivesToJson directives') : directives = directives' :=
  eq_of_map_eq (fun _ _ _ heq => Directive.toJson_inj heq) (Json.array.inj h)

theorem SelectionSet.toJson_ne_null (set : SelectionSet) : set.toJson ≠ .null := by
  cases set
  exact nofun

theorem SelectionSet.toJson_inj {set set' : SelectionSet} (h : set.toJson = set'.toJson) :
    set = set' := by
  refine (@SelectionSet.induction (fun field => ∀ other, field.toJson = other.toJson → field = other)
    (fun set => ∀ other, set.toJson = other.toJson → set = other) ?_ ?_).1 set set' h
  · rintro ⟨aliasName, name, arguments, directives, set⟩ ih
      ⟨aliasName', name', arguments', directives', set'⟩ h
    simp only [Field.toJson_eq, Json.object.injEq, List.cons.injEq, Prod.mk.injEq, Json.string.injEq,
      true_and, and_true] at h
    obtain ⟨halias, harguments, hdirectives, rfl, hset⟩ := h
    obtain rfl : set = set' := optional_inj SelectionSet.toJson_ne_null ih hset
    rw [optionalText_inj halias, argumentsToJson_inj harguments, directivesToJson_inj hdirectives]
  · rintro fields body ih ⟨fields', body'⟩ h
    simp only [SelectionSet.toJson, Json.object.injEq, List.cons.injEq, Prod.mk.injEq,
      Json.array.injEq, Json.string.injEq, true_and, and_true, Field.eachToJson_eq_map] at h
    obtain ⟨hfields, rfl⟩ := h
    rw [eq_of_map_eq (fun field hm other heq => ih field hm other (Json.tagged_eq_iff.mp heq).2) hfields]

theorem Atom.toJson_ne_null (a : Atom) : a.toJson ≠ .null := by
  cases a <;> exact nofun

theorem VariableDefinition.toJson_eq (v : VariableDefinition) : v.toJson = .object
    [("default_value", v.defaultValue.elim .null Atom.toJson),
     ("directives", directivesToJson v.directives), ("name", .string v.name),
     ("var_type", v.type.toJson)] := by
  obtain ⟨name, type, value, directives⟩ := v
  cases value <;> rfl

theorem VariableDefinition.toJson_inj {v w : VariableDefinition} (h : v.toJson = w.toJson) : v = w := by
  obtain ⟨name, type, value, directives⟩ := v
  obtain ⟨name', type', value', directives'⟩ := w
  simp only [toJson_eq, Json.object.injEq, List.cons.injEq, Prod.mk.injEq, Json.string.injEq, true_and,
    and_true] at h
  obtain ⟨hvalue, hdirectives, rfl, htype⟩ := h
  obtain rfl : value = value' :=
    optional_inj Atom.toJson_ne_null (fun _ _ _ heq => Atom.toJson_inj heq) hvalue
  rw [TypeRef.toJson_inj htype, directivesToJson_inj hdirectives]

theorem OperationKind.tag_inj {kind kind' : OperationKind} (h : kind.tag = kind'.tag) : kind = kind' := by
  cases kind <;> cases kind' <;> first | rfl | exact absurd h (by decide)

theorem Operation.toJson_inj {op op' : Operation} (h : op.toJson = op'.toJson) : op = op' := by
  obtain ⟨kind, name, vs, directives, set⟩ := op
  obtain ⟨kind', name', vs', directives', set'⟩ := op'
  simp only [toJson, Json.object.injEq, List.cons.injEq, Prod.mk.injEq, Json.string.injEq,
    Json.array.injEq, true_and, and_true] at h
  obtain ⟨hdirectives, hkind, hname, hset, hvariables⟩ := h
  rw [OperationKind.tag_inj hkind, optionalText_inj hname, directivesToJson_inj hdirectives,
    SelectionSet.toJson_inj hset,
    eq_of_map_eq (fun _ _ _ heq => VariableDefinition.toJson_inj heq) hvariables]

theorem Operation.toDefinitionJson_inj {op op' : Operation}
    (h : op.toDefinitionJson = op'.toDefinitionJson) : op = op' :=
  toJson_inj (Json.tagged_eq_iff.mp h).2

theorem Document.toJson_inj {d d' : Document} (h : d.toJson = d'.toJson) : d = d' := by
  obtain ⟨definitions⟩ := d
  obtain ⟨definitions'⟩ := d'
  simp only [toJson, Json.object.injEq, List.cons.injEq, Prod.mk.injEq, Json.array.injEq, true_and,
    and_true] at h
  rw [eq_of_map_eq (fun _ _ _ heq => Operation.toDefinitionJson_inj heq) h]

theorem Node.toJson_inj {v w : Node} (h : v.toJson = w.toJson) : v = w := by
  cases v <;> cases w <;> obtain ⟨htag, hvalue⟩ := Json.tagged_eq_iff.mp h
  case atom.atom => rw [Atom.toJson_inj hvalue]
  case type.type => rw [TypeRef.toJson_inj hvalue]
  case variableDefinition.variableDefinition => rw [VariableDefinition.toJson_inj hvalue]
  case operation.operation => rw [Operation.toDefinitionJson_inj hvalue]
  case document.document => rw [Document.toJson_inj hvalue]
  all_goals exact absurd htag (by decide)

end QueryDoc
