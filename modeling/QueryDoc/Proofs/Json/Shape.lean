import QueryDoc.Proofs.Document.WellFormed
import QueryDoc.Proofs.Json.KeyOrder

/-! What a document that has been read looks like as JSON, told apart from how it is encoded. The keys of
all objects are in order. -/

namespace QueryDoc

/-- The same keys in the same places, and under each of them what belongs together. -/
inductive Keyed.Alongside {α β : Type} (together : α → β → Prop) :
    List (String × α) → List (String × β) → Prop
  | nil : Alongside together [] []
  | cons {key : String} {a : α} {b : β} {entries : List (String × α)} {entries' : List (String × β)} :
      together a b → Alongside together entries entries' →
      Alongside together ((key, a) :: entries) ((key, b) :: entries')

inductive Atom.LooksLike : Atom → Json → Prop
  | null : LooksLike .null (.string "Null")
  | bool (b : Bool) : LooksLike (.bool b) (.object [("Boolean", .bool b)])
  | int (n : Int64) : LooksLike (.int n) (.object [("Int", .int n.toInt)])
  | float (x : Binary64) : LooksLike (.float x) (.object [("Float", .float x)])
  | string (text : String) : LooksLike (.string text) (.object [("String", .string text)])
  | enum (name : String) : LooksLike (.enum name) (.object [("Enum", .string name)])
  | list {items : List Atom} {values : List Json} :
      List.Forall₂ LooksLike items values → LooksLike (.list items) (.object [("List", .array values)])
  | object {fields arranged : List (String × Atom)} {members : List (String × Json)} :
      fields.Perm arranged → Keyed.Alongside LooksLike arranged members →
      (members.map Prod.fst).Pairwise (· < ·) →
      LooksLike (.object fields) (.object [("Object", .object members)])

inductive TypeRef.LooksLike : TypeRef → Json → Prop
  | named (name : String) : LooksLike (.named name) (.object [("Named", .string name)])
  | list {inner : TypeRef} {value : Json} :
      LooksLike inner value → LooksLike (.list inner) (.object [("List", value)])
  | nonNull {inner : TypeRef} {value : Json} :
      LooksLike inner value → LooksLike (.nonNull inner) (.object [("NonNull", value)])

/-- What is absent looks like null. -/
inductive OptionalLooksLike {α : Type} (looksLike : α → Json → Prop) : Option α → Json → Prop
  | absent : OptionalLooksLike looksLike none .null
  | given {a : α} {value : Json} : looksLike a value → OptionalLooksLike looksLike (some a) value

inductive VariableDefinition.LooksLike : VariableDefinition → Json → Prop
  | mk {name : String} {type : TypeRef} {default : Option Atom} {typeValue defaultValue : Json} :
      OptionalLooksLike Atom.LooksLike default defaultValue → type.LooksLike typeValue →
      LooksLike ⟨name, type, default, []⟩
        (.object
          [("default_value", defaultValue), ("directives", .array []), ("name", .string name),
           ("var_type", typeValue)])

inductive OperationKind.IsCalled : OperationKind → String → Prop
  | query : IsCalled .query "Query"
  | mutation : IsCalled .mutation "Mutation"
  | subscription : IsCalled .subscription "Subscription"

inductive Operation.LooksLike : Operation → Json → Prop
  | mk {kind : OperationKind} {tag : String} {name : Option String} {nameValue : Json}
      {definitions : List VariableDefinition} {values : List Json} {body : String} :
      kind.IsCalled tag → OptionalLooksLike (fun text value => value = .string text) name nameValue →
      List.Forall₂ VariableDefinition.LooksLike definitions values →
      LooksLike ⟨kind, name, definitions, [], .ofBody body⟩
        (.object
          [("OperationDefinition", .object
            [("directives", .array []), ("kind", .string tag), ("name", nameValue),
             ("selection_set", .object
              [("selections", .array []), ("unparsed_body", .string body)]),
             ("variable_definitions", .array values)])])

/-- What a document looks like as a node. -/
inductive Document.LooksLike : Document → Json → Prop
  | mk {definitions : List Operation} {values : List Json} :
      List.Forall₂ Operation.LooksLike definitions values →
      LooksLike ⟨definitions⟩
        (.object [("Document", .object [("definitions", .array values)])])

theorem Keyed.alongside_map {α β : Type} {together : α → β → Prop} {f : α → β}
    {entries : List (String × α)} (h : ∀ entry ∈ entries, together entry.2 (f entry.2)) :
    Alongside together entries (entries.map fun entry => (entry.1, f entry.2)) := by
  induction entries with
  | nil => exact .nil
  | cons entry entries ih =>
    obtain ⟨hentry, hentries⟩ := List.forall_mem_cons.mp h
    exact .cons hentry (ih hentries)

theorem forall₂_map {α β : Type} {together : α → β → Prop} {f : α → β} {as : List α}
    (h : ∀ a ∈ as, together a (f a)) : List.Forall₂ together as (as.map f) :=
  List.forall₂_map_right_iff.mpr (List.forall₂_same.mpr h)

theorem OptionalLooksLike.of_elim {α : Type} {looksLike : α → Json → Prop} {encode : α → Json}
    {x : Option α} (h : ∀ a ∈ x, looksLike a (encode a)) :
    OptionalLooksLike looksLike x (x.elim .null encode) := by
  cases x with
  | none => exact .absent
  | some a => exact .given (h a rfl)

/-- Members that are in order stay where they are. -/
theorem Json.sortKeys_object_of_pairwise (keys : List String) {members : List (String × Json)}
    (hkeys : members.map Prod.fst = keys) (h : keys.Pairwise (· < ·)) :
    (object members).sortKeys = object (members.map fun member => (member.1, member.2.sortKeys)) := by
  subst hkeys
  rw [sortKeys_object, Keyed.sorted_map, Keyed.sorted, List.mergeSort_of_pairwise]
  refine (List.pairwise_map.mp h).imp fun hlt => ?_
  simpa using String.lt_asymm hlt

open Json (sortKeys_tagged sortKeys_array sortKeys_object_of_pairwise)

theorem Atom.looksLike {a : Atom} (h : a.isWellFormed = true) : a.LooksLike a.toJson.sortKeys := by
  induction a using Atom.induction with
  | null => exact .null
  | list items ih =>
    rw [toJson, sortKeys_tagged, sortKeys_array, itemsToJson_eq_map, List.map_map]
    exact .list (forall₂_map fun item hm => ih item hm (itemsWellFormed_iff.mp h item hm))
  | object fields ih =>
    obtain ⟨hnodup, hfields⟩ := Bool.and_eq_true_iff.mp h
    have hvalues : ∀ field ∈ Keyed.sorted fields, field.2.LooksLike field.2.toJson.sortKeys := by
      intro field hm
      have hm := (Keyed.sorted_perm fields).mem_iff.mp hm
      exact ih field hm (fieldsWellFormed_iff.mp hfields field hm).2
    rw [toJson, sortKeys_tagged, sortKeys_fieldsToJson,
      Keyed.sorted_map fun a : Atom => a.toJson.sortKeys]
    refine .object (Keyed.sorted_perm fields).symm
      (Keyed.alongside_map (f := fun a : Atom => a.toJson.sortKeys) hvalues) ?_
    rw [List.map_map]
    exact List.pairwise_map.mpr (Keyed.pairwise_sorted (of_decide_eq_true hnodup))
  | _ =>
    rw [toJson, sortKeys_tagged]
    constructor

theorem TypeRef.looksLike (t : TypeRef) : t.LooksLike t.toJson := by
  induction t with
  | named name => exact .named name
  | list inner ih => exact .list ih
  | nonNull inner ih => exact .nonNull ih

theorem VariableDefinition.WellFormed.looksLike {v : VariableDefinition} (h : v.WellFormed) :
    v.LooksLike v.toJson.sortKeys := by
  obtain ⟨name, type, default, directives⟩ := v
  obtain rfl : directives = [] := h.directives
  rw [toJson_eq, sortKeys_object_of_pairwise ["default_value", "directives", "name", "var_type"] rfl
    (by decide)]
  simp only [List.map_cons, List.map_nil, sortKeys_optional, TypeRef.sortKeys_toJson]
  exact .mk (.of_elim fun a ha => a.looksLike (h.default a ha)) type.looksLike

theorem OperationKind.isCalled_tag (kind : OperationKind) : kind.IsCalled kind.tag := by
  cases kind <;> constructor

theorem Operation.WellFormed.looksLike {op : Operation} (h : op.WellFormed) :
    op.LooksLike op.toDefinitionJson.sortKeys := by
  obtain ⟨kind, name, definitions, directives, fields, body⟩ := op
  obtain rfl : directives = [] := h.directives
  obtain rfl : fields = [] := h.fields
  rw [toDefinitionJson, sortKeys_tagged, toJson, sortKeys_object_of_pairwise
    ["directives", "kind", "name", "selection_set", "variable_definitions"] rfl (by decide)]
  simp only [List.map_cons, List.map_nil, SelectionSet.toJson, sortKeys_optionalText, sortKeys_array,
    List.map_map]
  rw [sortKeys_object_of_pairwise ["selections", "unparsed_body"] rfl (by decide),
    optionalText_eq_elim]
  exact .mk kind.isCalled_tag (.of_elim fun _ _ => rfl)
    (forall₂_map fun v hv => (h.vars v hv).looksLike)

/-- Sorted by keys, a document that can be read looks as it should. -/
theorem Document.WellFormed.looksLike {d : Document} (h : d.WellFormed) :
    d.LooksLike (Node.document d).toJson.sortKeys := by
  obtain ⟨op, hd, hop⟩ := h.single
  obtain ⟨definitions⟩ := d
  obtain rfl : definitions = [op] := hd
  rw [Node.toJson, sortKeys_tagged, toJson, sortKeys_object_of_pairwise ["definitions"] rfl
    (by decide)]
  simp only [List.map_cons, List.map_nil, sortKeys_array]
  exact .mk (.cons hop.looksLike .nil)

theorem Keyed.Alongside.keys_eq {α β : Type} {together : α → β → Prop} {entries : List (String × α)}
    {entries' : List (String × β)} (h : Alongside together entries entries') :
    entries'.map Prod.fst = entries.map Prod.fst := by
  induction h with
  | nil => rfl
  | cons _ _ ih => rw [List.map_cons, List.map_cons, ih]

theorem Keyed.Alongside.unique {α β : Type} {together : α → β → Prop} {entries : List (String × α)}
    (hentries : ∀ entry ∈ entries, ∀ b b', together entry.2 b → together entry.2 b' → b = b')
    {bs bs' : List (String × β)} (h : Alongside together entries bs)
    (h' : Alongside together entries bs') : bs = bs' := by
  induction h generalizing bs' with
  | nil =>
    cases h'
    rfl
  | cons hvalue _ ih =>
    cases h' with
    | cons hvalue' hrest' =>
      obtain ⟨hentry, hentries⟩ := List.forall_mem_cons.mp hentries
      rw [hentry _ _ hvalue hvalue', ih hentries hrest']

theorem forall₂_unique {α β : Type} {together : α → β → Prop} {as : List α}
    (has : ∀ a ∈ as, ∀ b b', together a b → together a b' → b = b') {bs bs' : List β}
    (h : List.Forall₂ together as bs) (h' : List.Forall₂ together as bs') : bs = bs' := by
  induction h generalizing bs' with
  | nil =>
    cases h'
    rfl
  | cons hvalue _ ih =>
    cases h' with
    | cons hvalue' hrest' =>
      obtain ⟨ha, has⟩ := List.forall_mem_cons.mp has
      rw [ha _ _ hvalue hvalue', ih has hrest']

theorem OptionalLooksLike.unique {α : Type} {looksLike : α → Json → Prop} {x : Option α}
    (hx : ∀ a ∈ x, ∀ v w, looksLike a v → looksLike a w → v = w) {value value' : Json}
    (h : OptionalLooksLike looksLike x value) (h' : OptionalLooksLike looksLike x value') :
    value = value' := by
  cases h with
  | absent =>
    cases h'
    rfl
  | given hvalue =>
    cases h' with
    | given hvalue' => exact hx _ rfl _ _ hvalue hvalue'

theorem Atom.LooksLike.unique {a : Atom} (hwell : a.isWellFormed = true) {value value' : Json}
    (h : a.LooksLike value) (h' : a.LooksLike value') : value = value' := by
  induction a using Atom.induction generalizing value value' with
  | list items ih =>
    cases h with
    | list hvalues =>
      cases h' with
      | list hvalues' =>
        rw [forall₂_unique (fun item hm _ _ => ih item hm (itemsWellFormed_iff.mp hwell item hm))
          hvalues hvalues']
  | object fields ih =>
    cases h with
    | object hperm hmembers hsorted =>
      cases h' with
      | object hperm' hmembers' hsorted' =>
        have hfields := fieldsWellFormed_iff.mp (Bool.and_eq_true_iff.mp hwell).2
        obtain rfl := Keyed.eq_of_perm_of_pairwise (hperm.symm.trans hperm')
          (List.pairwise_map.mp (hmembers.keys_eq ▸ hsorted))
          (List.pairwise_map.mp (hmembers'.keys_eq ▸ hsorted'))
        rw [hmembers.unique (fun field hm _ _ => ?_) hmembers']
        have hm := hperm.mem_iff.mpr hm
        exact ih field hm (hfields field hm).2
  | _ =>
    cases h
    cases h'
    rfl

theorem TypeRef.LooksLike.unique {t : TypeRef} {value value' : Json} (h : t.LooksLike value)
    (h' : t.LooksLike value') : value = value' := by
  induction h generalizing value' with
  | named =>
    cases h'
    rfl
  | list _ ih =>
    cases h' with
    | list hinner => rw [ih hinner]
  | nonNull _ ih =>
    cases h' with
    | nonNull hinner => rw [ih hinner]

theorem VariableDefinition.LooksLike.unique {v : VariableDefinition} (hwell : v.WellFormed)
    {value value' : Json} (h : v.LooksLike value) (h' : v.LooksLike value') : value = value' := by
  cases h with
  | mk hdefault htype =>
    cases h' with
    | mk hdefault' htype' =>
      rw [htype.unique htype', hdefault.unique (fun a ha _ _ h h' => ?_) hdefault']
      exact h.unique (hwell.default a ha) h'

theorem OperationKind.IsCalled.unique {kind : OperationKind} {tag tag' : String}
    (h : kind.IsCalled tag) (h' : kind.IsCalled tag') : tag = tag' := by
  cases h <;> cases h' <;> rfl

theorem Operation.LooksLike.unique {op : Operation} (hwell : op.WellFormed) {value value' : Json}
    (h : op.LooksLike value) (h' : op.LooksLike value') : value = value' := by
  cases h with
  | mk hkind hname hdefinitions =>
    cases h' with
    | mk hkind' hname' hdefinitions' =>
      rw [hkind.unique hkind', hname.unique (fun _ _ _ _ h h' => h.trans h'.symm) hname',
        forall₂_unique (fun v hm _ _ h h' => h.unique (hwell.vars v hm) h') hdefinitions hdefinitions']

/-- A document that can be read looks one way only. -/
theorem Document.LooksLike.unique {d : Document} (hwell : d.WellFormed) {value value' : Json}
    (h : d.LooksLike value) (h' : d.LooksLike value') : value = value' := by
  obtain ⟨op, hd, hop⟩ := hwell.single
  cases h with
  | mk hvalues =>
    cases h' with
    | mk hvalues' =>
      obtain rfl := hd
      rw [forall₂_unique (fun _ hm _ _ h h' => ?_) hvalues hvalues']
      exact h.unique (List.mem_singleton.mp hm ▸ hop) h'

end QueryDoc
