import QueryDoc.Proofs.Nesting
import QueryDoc.Selection
import QueryDoc.Source.Alphabet

/-! Trees of selections that need not have been read. In a tidy one all names are names and no string
holds a quote, so that nothing in it ends too early once it is written. -/

namespace QueryDoc

namespace Atom

mutual

/-- Whether the enum values and the keys in a value are names, at every depth, and no string holds a
quote. Numbers may be infinite, and a key may occur twice. -/
def isTidy : Atom → Bool
  | string text => !text.toList.contains '"'
  | enum name => isName name.toList
  | list items => itemsTidy items
  | object fields => fieldsTidy fields
  | _ => true

def itemsTidy : List Atom → Bool
  | [] => true
  | item :: items => item.isTidy && itemsTidy items

def fieldsTidy : List (String × Atom) → Bool
  | [] => true
  | (key, value) :: fields => isName key.toList && value.isTidy && fieldsTidy fields

end

theorem itemsTidy_iff {items : List Atom} :
    itemsTidy items = true ↔ ∀ item ∈ items, item.isTidy = true := by
  induction items with
  | nil => simp [itemsTidy]
  | cons item items ih => simp only [itemsTidy, Bool.and_eq_true, ih, List.forall_mem_cons]

theorem fieldsTidy_iff {fields : List (String × Atom)} :
    fieldsTidy fields = true ↔
      ∀ field ∈ fields, isName field.1.toList = true ∧ field.2.isTidy = true := by
  induction fields with
  | nil => simp [fieldsTidy]
  | cons field fields ih => simp only [fieldsTidy, Bool.and_eq_true, ih, List.forall_mem_cons]

end Atom

def Directive.isTidy (d : Directive) : Bool :=
  isName d.name.toList && Atom.fieldsTidy d.arguments

variable {keeps : List Char → Bool}

mutual

/-- Whether a selection set is tidy at all depths, given which texts may be kept in it. -/
def SelectionSet.isTidy (keeps : List Char → Bool) : SelectionSet → Bool
  | ⟨fields, body⟩ => Field.eachTidy keeps fields && keeps body.toList

def Field.isTidy (keeps : List Char → Bool) : Field → Bool
  | ⟨aliasName, name, arguments, directives, selectionSet⟩ =>
    aliasName.all (isName ·.toList) && isName name.toList && Atom.fieldsTidy arguments &&
    directives.all (·.isTidy) &&
    (match selectionSet with
      | some set => set.isTidy keeps
      | none => true)

def Field.eachTidy (keeps : List Char → Bool) : List Field → Bool
  | [] => true
  | field :: fields => field.isTidy keeps && Field.eachTidy keeps fields

end

theorem Field.eachTidy_iff {fields : List Field} :
    Field.eachTidy keeps fields = true ↔ ∀ field ∈ fields, field.isTidy keeps = true := by
  induction fields with
  | nil => simp [Field.eachTidy]
  | cons field fields ih => simp only [Field.eachTidy, Bool.and_eq_true, ih, List.forall_mem_cons]

theorem SelectionSet.isTidy_iff {fields : List Field} {body : String} :
    SelectionSet.isTidy keeps ⟨fields, body⟩ = true ↔
      (∀ field ∈ fields, field.isTidy keeps = true) ∧ keeps body.toList = true := by
  simp only [SelectionSet.isTidy, Bool.and_eq_true, Field.eachTidy_iff]

/-- What a tidy field holds, its selection set apart. -/
structure Field.TidyParts (field : Field) : Prop where
  label : ∀ label ∈ field.aliasName, isName label.toList = true
  name : isName field.name.toList = true
  arguments : Atom.fieldsTidy field.arguments = true
  directives : ∀ d ∈ field.directives, d.isTidy = true

theorem Field.isTidy_iff {field : Field} :
    field.isTidy keeps = true ↔
      field.TidyParts ∧ ∀ set ∈ field.selectionSet, set.isTidy keeps = true := by
  obtain ⟨aliasName, name, arguments, directives, selectionSet⟩ := field
  have heq : Field.isTidy keeps ⟨aliasName, name, arguments, directives, selectionSet⟩ =
      (aliasName.all (isName ·.toList) && isName name.toList && Atom.fieldsTidy arguments &&
        directives.all (·.isTidy) && selectionSet.all (·.isTidy keeps)) := by
    cases selectionSet <;> rfl
  simp only [heq, Bool.and_eq_true, List.all_eq_true, Option.all_eq_true]
  constructor
  · rintro ⟨⟨⟨⟨hlabel, hname⟩, harguments⟩, hdirectives⟩, hset⟩
    exact ⟨⟨hlabel, hname, harguments, hdirectives⟩, hset⟩
  · rintro ⟨⟨hlabel, hname, harguments, hdirectives⟩, hset⟩
    exact ⟨⟨⟨⟨hlabel, hname⟩, harguments⟩, hdirectives⟩, hset⟩

/-- What holds of a field if it holds of its selection set, and of a selection set if it holds of its
fields, holds of all of them. -/
theorem SelectionSet.induction {onField : Field → Prop} {onSet : SelectionSet → Prop}
    (hfield : ∀ field : Field, (∀ set ∈ field.selectionSet, onSet set) → onField field)
    (hset : ∀ fields body, (∀ field ∈ fields, onField field) → onSet ⟨fields, body⟩) :
    (∀ set, onSet set) ∧ ∀ field, onField field := by
  have hsome : ∀ set, onSet set → ∀ other ∈ some set, onSet other := by
    rintro set hset other ⟨⟩
    exact hset
  have hcons : ∀ field fields, onField field → (∀ other ∈ fields, onField other) →
      ∀ other ∈ field :: fields, onField other :=
    fun _ _ h hs => List.forall_mem_cons.mpr ⟨h, hs⟩
  have hsets : ∀ set, onSet set :=
    @SelectionSet.rec onField onSet (fun s => ∀ set ∈ s, onSet set)
      (fun fields => ∀ field ∈ fields, onField field)
      (fun l n as ds s => hfield ⟨l, n, as, ds, s⟩) hset nofun hsome nofun hcons
  exact ⟨hsets, fun field => hfield field fun set _ => hsets set⟩

end QueryDoc
