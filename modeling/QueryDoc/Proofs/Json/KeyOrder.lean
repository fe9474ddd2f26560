import QueryDoc.Proofs.Json.Encoding

/-! Encodings in which the keys of all objects are sorted. They tell documents and their parts apart up to
the order of the keys in objects and in arguments. -/

namespace QueryDoc

/-- Entries with the same keys in any order, and under each key values that are alike. -/
inductive Keyed.Reordered {α : Type} (same : α → α → Prop) :
    List (String × α) → List (String × α) → Prop
  | nil : Reordered same [] []
  | cons {key : String} {a b : α} {entries entries' : List (String × α)} :
      same a b → Reordered same entries entries' →
      Reordered same ((key, a) :: entries) ((key, b) :: entries')
  | permuted {entries arranged arranged' entries' : List (String × α)} :
      entries.Perm arranged → Reordered same arranged arranged' → arranged'.Perm entries' →
      Reordered same entries entries'

/-- Values that are the same but for the order of the keys in their objects. -/
inductive Atom.Alike : Atom → Atom → Prop
  | refl (a : Atom) : Alike a a
  | list {items items' : List Atom} :
      List.Forall₂ Alike items items' → Alike (.list items) (.list items')
  | object {fields fields' : List (String × Atom)} :
      Keyed.Reordered Alike fields fields' → Alike (.object fields) (.object fields')

structure Directive.Alike (d e : Directive) : Prop where
  name : d.name = e.name
  arguments : Keyed.Reordered Atom.Alike d.arguments e.arguments

mutual

inductive SelectionSet.Alike : SelectionSet → SelectionSet → Prop
  | mk {fields fields' : List Field} {body : String} :
      List.Forall₂ Field.Alike fields fields' → SelectionSet.Alike ⟨fields, body⟩ ⟨fields', body⟩

inductive Field.Alike : Field → Field → Prop
  | mk {aliasName : Option String} {name : String} {arguments arguments' : List (String × Atom)}
      {directives directives' : List Directive} {set set' : Option SelectionSet} :
      Keyed.Reordered Atom.Alike arguments arguments' →
      List.Forall₂ Directive.Alike directives directives' → Option.Rel SelectionSet.Alike set set' →
      Field.Alike ⟨aliasName, name, arguments, directives, set⟩
        ⟨aliasName, name, arguments', directives', set'⟩

end

structure VariableDefinition.Alike (v w : VariableDefinition) : Prop where
  name : v.name = w.name
  type : v.type = w.type
  defaultValue : Option.Rel Atom.Alike v.defaultValue w.defaultValue
  directives : List.Forall₂ Directive.Alike v.directives w.directives

structure Operation.Alike (op op' : Operation) : Prop where
  kind : op.kind = op'.kind
  name : op.name = op'.name
  variableDefinitions :
    List.Forall₂ VariableDefinition.Alike op.variableDefinitions op'.variableDefinitions
  directives : List.Forall₂ Directive.Alike op.directives op'.directives
  selectionSet : op.selectionSet.Alike op'.selectionSet

/-- Nodes that are the same but for the order of the keys in objects and in arguments. -/
inductive Node.Alike : Node → Node → Prop
  | atom {a b : Atom} : Atom.Alike a b → Alike (.atom a) (.atom b)
  | type (t : TypeRef) : Alike (.type t) (.type t)
  | variableDefinition {v w : VariableDefinition} :
      v.Alike w → Alike (.variableDefinition v) (.variableDefinition w)
  | operation {op op' : Operation} : op.Alike op' → Alike (.operation op) (.operation op')
  | document {definitions definitions' : List Operation} :
      List.Forall₂ Operation.Alike definitions definitions' →
      Alike (.document ⟨definitions⟩) (.document ⟨definitions'⟩)

/-- Entries in the order of their keys. -/
def Keyed.sorted {α : Type} (entries : List (String × α)) : List (String × α) :=
  entries.mergeSort fun a b => !decide (b.1 < a.1)

theorem Keyed.sorted_perm {α : Type} (entries : List (String × α)) : (sorted entries).Perm entries :=
  List.mergeSort_perm _ _

theorem Keyed.pairwise_sorted {α : Type} {entries : List (String × α)}
    (h : (entries.map Prod.fst).Nodup) : (sorted entries).Pairwise fun a b => a.1 < b.1 := by
  have hle : (sorted entries).Pairwise fun a b => a.1 ≤ b.1 := by
    have hpairwise := @List.pairwise_mergeSort _ (fun a b : String × α => !decide (b.1 < a.1))
      (fun a b c hab hbc => by
        simp only [Bool.not_eq_true', decide_eq_false_iff_not, String.not_lt] at hab hbc ⊢
        exact String.le_trans hab hbc)
      (fun a b => by
        simp only [Bool.or_eq_true, Bool.not_eq_true', decide_eq_false_iff_not, String.not_lt]
        exact String.le_total a.1 b.1) entries
    refine hpairwise.imp fun hab => ?_
    simpa only [Bool.not_eq_true', decide_eq_false_iff_not, String.not_lt] using hab
  have hne : (sorted entries).Pairwise fun a b => a.1 ≠ b.1 := by
    rw [← List.pairwise_map]
    exact ((sorted_perm entries).map Prod.fst).nodup_iff.mpr h
  refine hle.imp₂ (fun a b hab hdiff => ?_) hne
  exact String.not_le.mp fun hba => hdiff (String.le_antisymm hab hba)

theorem Keyed.eq_of_perm_of_pairwise {α : Type} {entries entries' : List (String × α)}
    (hperm : entries.Perm entries') (h : entries.Pairwise fun a b => a.1 < b.1)
    (h' : entries'.Pairwise fun a b => a.1 < b.1) : entries = entries' :=
  List.Perm.eq_of_pairwise
    (fun a _ _ _ hab hba => absurd (String.lt_trans hab hba) (String.lt_irrefl a.1)) h h' hperm

/-- Sorting forgets the order of entries with distinct keys. -/
theorem Keyed.sorted_eq_of_perm {α : Type} {entries entries' : List (String × α)}
    (hperm : entries.Perm entries') (hnodup : (entries.map Prod.fst).Nodup) :
    sorted entries = sorted entries' := by
  have hnodup' : (entries'.map Prod.fst).Nodup := (hperm.map Prod.fst).nodup_iff.mp hnodup
  refine eq_of_perm_of_pairwise ?_ (pairwise_sorted hnodup) (pairwise_sorted hnodup')
  exact (sorted_perm entries).trans (hperm.trans (sorted_perm entries').symm)

theorem Keyed.sorted_map {α β : Type} (f : α → β) (entries : List (String × α)) :
    sorted (entries.map fun entry => (entry.1, f entry.2)) =
      (sorted entries).map fun entry => (entry.1, f entry.2) :=
  (List.map_mergeSort (f := fun entry : String × α => (entry.1, f entry.2))
    fun _ _ _ _ => rfl).symm

theorem Keyed.reordered_of_map_eq {α β : Type} {f : α → β} {same : α → α → Prop}
    {entries entries' : List (String × α)}
    (hf : ∀ entry ∈ entries, ∀ b, f entry.2 = f b → same entry.2 b)
    (h : (entries.map fun entry => (entry.1, f entry.2)) =
      entries'.map fun entry => (entry.1, f entry.2)) : Reordered same entries entries' := by
  induction entries generalizing entries' with
  | nil =>
    obtain rfl := List.map_eq_nil_iff.mp h.symm
    exact .nil
  | cons entry entries ih =>
    cases entries' with
    | nil => cases h
    | cons entry' entries' =>
      obtain ⟨hhead, htail⟩ := List.cons.inj h
      obtain ⟨key, a⟩ := entry
      obtain ⟨key', b⟩ := entry'
      obtain ⟨rfl, hvalue⟩ := Prod.mk.inj hhead
      exact .cons (hf _ List.mem_cons_self b hvalue)
        (ih (fun entry hm => hf entry (List.mem_cons_of_mem _ hm)) htail)

theorem Keyed.reordered_of_sorted_eq {α β : Type} {f : α → β} {same : α → α → Prop}
    {entries entries' : List (String × α)}
    (hf : ∀ entry ∈ entries, ∀ b, f entry.2 = f b → same entry.2 b)
    (h : sorted (entries.map fun entry => (entry.1, f entry.2)) =
      sorted (entries'.map fun entry => (entry.1, f entry.2))) : Reordered same entries entries' := by
  rw [sorted_map, sorted_map] at h
  refine .permuted (sorted_perm entries).symm (reordered_of_map_eq (fun entry hm => ?_) h)
    (sorted_perm entries')
  exact hf entry ((sorted_perm entries).mem_iff.mp hm)

/-- Entries of the same distinct keys can be told from what they are when they are sorted. -/
theorem Keyed.eq_of_sorted_eq {α : Type} {entries entries' : List (String × α)}
    (hkeys : entries.map Prod.fst = entries'.map Prod.fst) (hnodup : (entries.map Prod.fst).Nodup)
    (h : sorted entries = sorted entries') : entries = entries' := by
  have hperm : entries.Perm entries' := (sorted_perm entries).symm.trans (h ▸ sorted_perm entries')
  clear h
  induction entries generalizing entries' with
  | nil => exact (List.map_eq_nil_iff.mp hkeys.symm).symm
  | cons entry entries ih =>
    cases entries' with
    | nil => cases hkeys
    | cons entry' entries' =>
      obtain ⟨hkey, hrest⟩ := List.cons.inj hkeys
      obtain ⟨hnew, hnodup⟩ := List.nodup_cons.mp hnodup
      have hm : entry ∈ entry' :: entries' := hperm.mem_iff.mp List.mem_cons_self
      -- Further back in the other list stand only keys that differ from the first one.
      obtain rfl : entry = entry' := by
        refine (List.mem_cons.mp hm).resolve_right fun hlater => hnew ?_
        exact hrest ▸ List.mem_map_of_mem hlater
      rw [ih hrest hnodup hperm.cons_inv]

namespace Json

theorem sortKeysItems_eq_map (items : List Json) : sortKeysItems items = items.map sortKeys := by
  induction items with
  | nil => rfl
  | cons item items ih => rw [sortKeysItems, ih, List.map_cons]

theorem sortKeysMembers_eq_map (members : List (String × Json)) :
    sortKeysMembers members = members.map fun member => (member.1, member.2.sortKeys) := by
  induction members with
  | nil => rfl
  | cons member members ih => rw [sortKeysMembers, ih, List.map_cons]

theorem sortKeys_array (items : List Json) : (array items).sortKeys = array (items.map sortKeys) := by
  rw [sortKeys, sortKeysItems_eq_map]

theorem sortKeys_object (members : List (String × Json)) : (object members).sortKeys =
    object (Keyed.sorted (members.map fun member => (member.1, member.2.sortKeys))) := by
  rw [sortKeys, sortKeysMembers_eq_map]
  rfl

theorem sortKeys_tagged (tag : String) (value : Json) :
    (tagged tag value).sortKeys = tagged tag value.sortKeys := by
  rw [tagged, sortKeys_object, List.map_singleton, Keyed.sorted, List.mergeSort_singleton, tagged]

theorem isFinite_sortKeys {j : Json} (h : j.isFinite = true) : j.sortKeys.isFinite = true := by
  induction j using Json.induction with
  | array items ih =>
    rw [sortKeys_array, isFinite_array_iff, List.forall_mem_map]
    exact fun item hm => ih item hm (isFinite_array_iff.mp h item hm)
  | object members ih =>
    rw [sortKeys_object, isFinite_object_iff]
    intro member hm
    obtain ⟨other, hother, rfl⟩ := List.mem_map.mp ((Keyed.sorted_perm _).mem_iff.mp hm)
    exact ih other hother (isFinite_object_iff.mp h other hother)
  | _ => exact h

/-- Objects with the same distinct keys, whose values only are sorted. -/
theorem sortKeys_object_inj {members members' : List (String × Json)}
    (h : (object members).sortKeys = (object members').sortKeys)
    (hkeys : members.map Prod.fst = members'.map Prod.fst) (hnodup : (members.map Prod.fst).Nodup) :
    members.map (·.2.sortKeys) = members'.map (·.2.sortKeys) := by
  have hfst : ∀ ms : List (String × Json),
      (ms.map fun member => (member.1, member.2.sortKeys)).map Prod.fst = ms.map Prod.fst := fun ms => by
    rw [List.map_map]
    rfl
  rw [sortKeys_object, sortKeys_object] at h
  have heq := Keyed.eq_of_sorted_eq (by rw [hfst, hfst, hkeys]) (by rwa [hfst]) (object.inj h)
  simpa [Function.comp_def] using congrArg (List.map Prod.snd) heq

end Json

open Json (sortKeys_tagged sortKeys_array sortKeys_object sortKeys_object_inj)

theorem Atom.sortKeys_fieldsToJson (fields : List (String × Atom)) :
    (Json.object (fieldsToJson fields)).sortKeys =
      .object (Keyed.sorted (fields.map fun field => (field.1, field.2.toJson.sortKeys))) := by
  rw [sortKeys_object, fieldsToJson_eq_map, List.map_map]
  rfl

theorem Atom.reordered_of_sortKeys_eq {fields fields' : List (String × Atom)}
    (hfields : ∀ field ∈ fields, ∀ b : Atom, field.2.toJson.sortKeys = b.toJson.sortKeys →
      field.2.Alike b)
    (h : (Json.object (fieldsToJson fields)).sortKeys = (Json.object (fieldsToJson fields')).sortKeys) :
    Keyed.Reordered Alike fields fields' := by
  rw [sortKeys_fieldsToJson, sortKeys_fieldsToJson] at h
  exact Keyed.reordered_of_sorted_eq (f := fun a => a.toJson.sortKeys) hfields (Json.object.inj h)

theorem Atom.alike_of_sortKeys_eq {a b : Atom} (h : a.toJson.sortKeys = b.toJson.sortKeys) :
    a.Alike b := by
  induction a using Atom.induction generalizing b with
  | list items ih =>
    cases b with
    | list items' =>
      rw [toJson, toJson, sortKeys_tagged, sortKeys_tagged, sortKeys_array, sortKeys_array,
        itemsToJson_eq_map, itemsToJson_eq_map, List.map_map, List.map_map] at h
      have hitems := Json.array.inj (Json.tagged_eq_iff.mp h).2
      exact .list (forall₂_of_map_eq (fun item hm item' heq => ih item hm heq) hitems)
    | _ => simp [toJson, sortKeys_tagged, Json.sortKeys] at h
  | object fields ih =>
    cases b with
    | object fields' =>
      rw [toJson, toJson, sortKeys_tagged, sortKeys_tagged] at h
      exact .object (reordered_of_sortKeys_eq (fun field hm b heq => ih field hm heq)
        (Json.tagged_eq_iff.mp h).2)
    | _ => simp [toJson, sortKeys_tagged, Json.sortKeys] at h
  | _ => cases b <;> simp_all [toJson, sortKeys_tagged, Json.sortKeys, Int64.toInt_inj, Alike.refl]

theorem argumentsToJson_reordered {arguments arguments' : List (String × Atom)}
    (h : (argumentsToJson arguments).sortKeys = (argumentsToJson arguments').sortKeys) :
    Keyed.Reordered Atom.Alike arguments arguments' :=
  Atom.reordered_of_sortKeys_eq (fun _ _ _ heq => Atom.alike_of_sortKeys_eq heq) h

theorem Directive.alike_of_sortKeys_eq {d e : Directive} (h : d.toJson.sortKeys = e.toJson.sortKeys) :
    d.Alike e := by
  have hvalues := sortKeys_object_inj h rfl (by simp)
  simp only [List.map_cons, List.cons.injEq] at hvalues
  obtain ⟨hname, harguments, -⟩ := hvalues
  exact ⟨Json.string.inj hname, argumentsToJson_reordered harguments⟩

theorem directivesToJson_alike {directives directives' : List Directive}
    (h : (directivesToJson directives).sortKeys = (directivesToJson directives').sortKeys) :
    List.Forall₂ Directive.Alike directives directives' := by
  rw [directivesToJson, directivesToJson, sortKeys_array, sortKeys_array, List.map_map,
    List.map_map] at h
  exact forall₂_of_map_eq (fun _ _ _ heq => Directive.alike_of_sortKeys_eq heq) (Json.array.inj h)

theorem sortKeys_optional {α : Type} (encode : α → Json) (x : Option α) :
    (x.elim .null encode).sortKeys = x.elim .null fun a => (encode a).sortKeys := by
  cases x <;> rfl

theorem sortKeys_optionalText (text : Option String) :
    (optionalText text).sortKeys = optionalText text := by
  cases text <;> rfl

theorem SelectionSet.alike_of_sortKeys_eq {set set' : SelectionSet}
    (h : set.toJson.sortKeys = set'.toJson.sortKeys) : set.Alike set' := by
  refine (@SelectionSet.induction
    (fun field => ∀ other, field.toJson.sortKeys = other.toJson.sortKeys → field.Alike other)
    (fun set => ∀ other, set.toJson.sortKeys = other.toJson.sortKeys → set.Alike other) ?_ ?_).1
      set set' h
  · rintro ⟨aliasName, name, arguments, directives, set⟩ ih
      ⟨aliasName', name', arguments', directives', set'⟩ h
    rw [Field.toJson_eq, Field.toJson_eq] at h
    have hvalues := sortKeys_object_inj h rfl (by simp)
    simp only [List.map_cons, List.cons.injEq, sortKeys_optionalText, optionalSetToJson,
      sortKeys_optional] at hvalues
    obtain ⟨halias, harguments, hdirectives, hname, hset, -⟩ := hvalues
    obtain rfl := optionalText_inj halias
    obtain rfl := Json.string.inj hname
    refine .mk (argumentsToJson_reordered harguments) (directivesToJson_alike hdirectives) ?_
    refine optional_rel (fun set => ?_) ih hset
    cases set
    exact nofun
  · rintro fields body ih ⟨fields', body'⟩ h
    have hvalues := sortKeys_object_inj h rfl (by simp)
    simp only [List.map_cons, List.cons.injEq, Field.eachToJson_eq_map, sortKeys_array, List.map_map,
      Json.array.injEq] at hvalues
    obtain ⟨hfields, hbody, -⟩ := hvalues
    obtain rfl := Json.string.inj hbody
    refine .mk (forall₂_of_map_eq (fun field hm other heq => ih field hm other ?_) hfields)
    simpa [sortKeys_tagged] using heq

theorem Atom.sortKeys_toJson_ne_null (a : Atom) : a.toJson.sortKeys ≠ .null := by
  cases a <;> simp [toJson, Json.sortKeys, Json.tagged]

theorem TypeRef.sortKeys_toJson (t : TypeRef) : t.toJson.sortKeys = t.toJson := by
  induction t with
  | named name =>
    rw [toJson, sortKeys_tagged]
    rfl
  | list inner ih => rw [toJson, sortKeys_tagged, ih]
  | nonNull inner ih => rw [toJson, sortKeys_tagged, ih]

theorem VariableDefinition.alike_of_sortKeys_eq {v w : VariableDefinition}
    (h : v.toJson.sortKeys = w.toJson.sortKeys) : v.Alike w := by
  rw [toJson_eq, toJson_eq] at h
  have hvalues := sortKeys_object_inj h rfl (by simp)
  simp only [List.map_cons, List.cons.injEq, sortKeys_optional, TypeRef.sortKeys_toJson] at hvalues
  obtain ⟨hvalue, hdirectives, hname, htype, -⟩ := hvalues
  exact ⟨Json.string.inj hname, TypeRef.toJson_inj htype,
    optional_rel Atom.sortKeys_toJson_ne_null (fun _ _ _ heq => Atom.alike_of_sortKeys_eq heq) hvalue,
    directivesToJson_alike hdirectives⟩

theorem Operation.alike_of_sortKeys_eq {op op' : Operation}
    (h : op.toDefinitionJson.sortKeys = op'.toDefinitionJson.sortKeys) : op.Alike op' := by
  rw [toDefinitionJson, toDefinitionJson, sortKeys_tagged, sortKeys_tagged] at h
  have hvalues := sortKeys_object_inj (Json.tagged_eq_iff.mp h).2 rfl (by simp)
  simp only [List.map_cons, List.cons.injEq, sortKeys_optionalText, sortKeys_array, List.map_map,
    Json.array.injEq] at hvalues
  obtain ⟨hdirectives, hkind, hname, hset, hvariables, -⟩ := hvalues
  exact ⟨OperationKind.tag_inj (Json.string.inj hkind), optionalText_inj hname,
    forall₂_of_map_eq (fun _ _ _ heq => VariableDefinition.alike_of_sortKeys_eq heq) hvariables,
    directivesToJson_alike hdirectives, SelectionSet.alike_of_sortKeys_eq hset⟩

theorem Document.alike_of_sortKeys_eq {d d' : Document} (h : d.toJson.sortKeys = d'.toJson.sortKeys) :
    List.Forall₂ Operation.Alike d.definitions d'.definitions := by
  have hvalues := sortKeys_object_inj h rfl (by simp)
  simp only [List.map_cons, List.cons.injEq, sortKeys_array, List.map_map, Json.array.injEq] at hvalues
  exact forall₂_of_map_eq (fun _ _ _ heq => Operation.alike_of_sortKeys_eq heq) hvalues.1

theorem Node.alike_of_sortKeys_eq {v w : Node} (h : v.toJson.sortKeys = w.toJson.sortKeys) :
    v.Alike w := by
  cases v <;> cases w <;> rw [toJson, toJson, sortKeys_tagged, sortKeys_tagged] at h <;>
    obtain ⟨htag, hvalue⟩ := Json.tagged_eq_iff.mp h
  case atom.atom => exact .atom (Atom.alike_of_sortKeys_eq hvalue)
  case type.type t u =>
    rw [TypeRef.sortKeys_toJson, TypeRef.sortKeys_toJson] at hvalue
    obtain rfl := TypeRef.toJson_inj hvalue
    exact .type t
  case variableDefinition.variableDefinition =>
    exact .variableDefinition (VariableDefinition.alike_of_sortKeys_eq hvalue)
  case operation.operation => exact .operation (Operation.alike_of_sortKeys_eq hvalue)
  case document.document => exact .document (Document.alike_of_sortKeys_eq hvalue)
  all_goals exact absurd htag (by decide)

/-- What is written as JSON can be told from its text, if all floating point numbers in it are finite: a
text in one line is the text of one node only, down to the order of keys and the bits of numbers, and an
indented text with sorted keys is the text of nodes that are the same but for the order of their keys. -/
theorem Node.json_text_inj {v w : Node} (hv : v.isFinite = true) (hw : w.isFinite = true) :
    (v.toJson.compact = w.toJson.compact → v = w) ∧
    ∀ level, v.toJson.sortKeys.indented level = w.toJson.sortKeys.indented level → v.Alike w := by
  have hvjson := v.isFinite_toJson hv
  have hwjson := w.isFinite_toJson hw
  refine ⟨fun h => toJson_inj (Json.compact_inj hvjson hwjson h), fun level h => ?_⟩
  exact alike_of_sortKeys_eq
    (Json.indented_inj (Json.isFinite_sortKeys hvjson) (Json.isFinite_sortKeys hwjson) h)

/-- Keys that are tags themselves, and in two orders. -/
theorem Node.json_text_inj_two_orders :
    let half := Binary64.ofBits 0x3FE0000000000000
    let v : Node := .atom (.object [("Float", .float half), ("Null", .string "\\\x01")])
    let w : Node := .atom (.object [("Null", .string "\\\x01"), ("Float", .float half)])
    v.isFinite = true ∧ w.isFinite = true ∧ v.toJson.compact ≠ w.toJson.compact ∧
      v.toJson.sortKeys.indented 1 = w.toJson.sortKeys.indented 1 ∧ v.Alike w := by
  intro half v w
  have hv : v.isFinite = true := by decide
  have hw : w.isFinite = true := by decide
  have hsorted : v.toJson.sortKeys = w.toJson.sortKeys := by
    simp only [v, w, toJson, Atom.toJson, Atom.fieldsToJson, sortKeys_tagged, sortKeys_object]
    rw [Keyed.sorted_eq_of_perm (List.Perm.map _ (.swap _ _ [])) (by simp)]
  obtain ⟨hcompact, hindented⟩ := json_text_inj hv hw
  refine ⟨hv, hw, fun h => ?_, by rw [hsorted], hindented 1 (by rw [hsorted])⟩
  have heq := hcompact h
  simp [v, w] at heq

end QueryDoc
