import QueryDoc.Document
import QueryDoc.Proofs.Source.LineBreak

/-! Documents whose line breaks are written in another way. Of what is read, only the strings and the
text of a selection set can have line breaks in them. -/

namespace QueryDoc

variable (b : LineBreak)

namespace Atom

mutual

def respell : Atom → Atom
  | string text => string (b.text text)
  | list items => list (respellItems items)
  | object fields => object (respellFields fields)
  | a => a

def respellItems : List Atom → List Atom
  | [] => []
  | item :: items => item.respell :: respellItems items

def respellFields : List (String × Atom) → List (String × Atom)
  | [] => []
  | (key, value) :: fields => (key, value.respell) :: respellFields fields

end

theorem respellItems_eq_map (items : List Atom) : respellItems b items = items.map (respell b) := by
  induction items with
  | nil => rfl
  | cons item items ih => rw [respellItems, ih, List.map_cons]

mutual

theorem respell_lf (a : Atom) : a.respell .lf = a := by
  cases a with
  | string text => rw [respell, LineBreak.text_lf]
  | list items => rw [respell, respellItems_lf items]
  | object fields => rw [respell, respellFields_lf fields]
  | _ => rfl

theorem respellItems_lf (items : List Atom) : respellItems .lf items = items := by
  cases items with
  | nil => rfl
  | cons item items => rw [respellItems, respell_lf item, respellItems_lf items]

theorem respellFields_lf (fields : List (String × Atom)) : respellFields .lf fields = fields := by
  cases fields with
  | nil => rfl
  | cons field fields => rw [respellFields, respell_lf field.2, respellFields_lf fields]

end

end Atom

def VariableDefinition.respell (v : VariableDefinition) : VariableDefinition :=
  { v with defaultValue := v.defaultValue.map (Atom.respell b) }

def SelectionSet.respell (set : SelectionSet) : SelectionSet :=
  { set with body := b.text set.body }

/-- An operation that has been read has no directives, and its selection set has no fields. -/
def Operation.respell (op : Operation) : Operation :=
  { op with
    variableDefinitions := op.variableDefinitions.map (VariableDefinition.respell b)
    selectionSet := op.selectionSet.respell b }

def Document.respell (d : Document) : Document :=
  { d with definitions := d.definitions.map (Operation.respell b) }

theorem VariableDefinition.respell_lf (v : VariableDefinition) : v.respell .lf = v := by
  have hatom : Atom.respell .lf = id := funext Atom.respell_lf
  rw [respell, hatom, Option.map_id, id]

theorem SelectionSet.respell_lf (set : SelectionSet) : set.respell .lf = set := by
  cases set with
  | mk fields body => rw [respell, LineBreak.text_lf]

theorem Operation.respell_lf (op : Operation) : op.respell .lf = op := by
  have hvariable : VariableDefinition.respell .lf = id := funext VariableDefinition.respell_lf
  rw [respell, hvariable, List.map_id, SelectionSet.respell_lf]

theorem Document.respell_lf (d : Document) : d.respell .lf = d := by
  have hop : Operation.respell .lf = id := funext Operation.respell_lf
  rw [respell, hop, List.map_id]

end QueryDoc
