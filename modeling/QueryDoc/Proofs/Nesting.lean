import QueryDoc.Document

/-! How deep values, types and documents nest. A name or a scalar has one level, and so has an empty
list or object. -/

namespace QueryDoc

namespace Atom

mutual

def nesting : Atom → Nat
  | list items => itemsNesting items + 1
  | object fields => fieldsNesting fields + 1
  | _ => 1

def itemsNesting : List Atom → Nat
  | [] => 0
  | item :: items => max item.nesting (itemsNesting items)

def fieldsNesting : List (String × Atom) → Nat
  | [] => 0
  | (_, value) :: fields => max value.nesting (fieldsNesting fields)

end

theorem itemsNesting_le_iff {items : List Atom} {n : Nat} :
    itemsNesting items ≤ n ↔ ∀ item ∈ items, item.nesting ≤ n := by
  induction items with
  | nil => simp [itemsNesting]
  | cons item items ih => simp only [itemsNesting, Nat.max_le, ih, List.forall_mem_cons]

theorem fieldsNesting_le_iff {fields : List (String × Atom)} {n : Nat} :
    fieldsNesting fields ≤ n ↔ ∀ field ∈ fields, field.2.nesting ≤ n := by
  induction fields with
  | nil => simp [fieldsNesting]
  | cons field fields ih => simp only [fieldsNesting, Nat.max_le, ih, List.forall_mem_cons]

theorem nesting_pos (a : Atom) : 0 < a.nesting := by
  cases a <;> simp [nesting]

theorem nesting_lt_of_mem {item : Atom} {items : List Atom} (h : item ∈ items) :
    item.nesting < (list items).nesting := by
  have hle := itemsNesting_le_iff.mp (Nat.le_refl (itemsNesting items)) item h
  simp only [nesting]
  omega

theorem nesting_lt_of_mem_fields {key : String} {value : Atom} {fields : List (String × Atom)}
    (h : (key, value) ∈ fields) : value.nesting < (object fields).nesting := by
  have hle := fieldsNesting_le_iff.mp (Nat.le_refl (fieldsNesting fields)) _ h
  simp only [nesting] at hle ⊢
  omega

end Atom

/-- A mark that a type is not null adds no level. -/
def TypeRef.nesting : TypeRef → Nat
  | named _ => 1
  | list inner => inner.nesting + 1
  | nonNull inner => inner.nesting

theorem TypeRef.nesting_pos (t : TypeRef) : 0 < t.nesting := by
  induction t with
  | named => simp [nesting]
  | list => simp [nesting]
  | nonNull _ ih => exact ih

def VariableDefinition.nesting (v : VariableDefinition) : Nat :=
  max v.type.nesting (v.defaultValue.elim 0 Atom.nesting)

/-- The deepest type or default value of an operation, or zero without variables. -/
def Operation.nesting (op : Operation) : Nat :=
  (op.variableDefinitions.map (·.nesting)).foldr max 0

def Document.nesting (d : Document) : Nat :=
  (d.definitions.map (·.nesting)).foldr max 0

theorem foldr_max_le_iff {ns : List Nat} {n : Nat} : ns.foldr max 0 ≤ n ↔ ∀ k ∈ ns, k ≤ n := by
  induction ns with
  | nil => simp
  | cons k ns ih => rw [List.foldr_cons, Nat.max_le, ih, List.forall_mem_cons]

theorem VariableDefinition.nesting_le_iff {v : VariableDefinition} {n : Nat} :
    v.nesting ≤ n ↔ v.type.nesting ≤ n ∧ ∀ a ∈ v.defaultValue, a.nesting ≤ n := by
  rw [nesting, Nat.max_le]
  cases v.defaultValue <;> simp

theorem Operation.nesting_le_iff {op : Operation} {n : Nat} :
    op.nesting ≤ n ↔ ∀ v ∈ op.variableDefinitions, v.nesting ≤ n := by
  simp [nesting, foldr_max_le_iff]

theorem Document.nesting_le_iff {d : Document} {n : Nat} :
    d.nesting ≤ n ↔ ∀ op ∈ d.definitions, op.nesting ≤ n := by
  simp [nesting, foldr_max_le_iff]

end QueryDoc
