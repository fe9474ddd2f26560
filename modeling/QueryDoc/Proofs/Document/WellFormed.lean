import QueryDoc.Proofs.Atom.WellFormed
import QueryDoc.Proofs.Nesting
import QueryDoc.Proofs.Selection.RoundTrip

/-! The documents that the grammar can spell. -/

namespace QueryDoc

/-- Whether the names in a type are names, and no mark that it is not null stands after another. -/
def TypeRef.isWellFormed : TypeRef → Bool
  | named name => isName name.toList
  | list inner => inner.isWellFormed
  | nonNull inner => !inner.isNonNull && inner.isWellFormed

structure VariableDefinition.WellFormed (v : VariableDefinition) : Prop where
  name : isName v.name.toList = true
  type : v.type.isWellFormed = true
  default : ∀ a ∈ v.defaultValue, a.isWellFormed = true
  directives : v.directives = []

/-- The selection set of a well-formed operation is a trimmed text. Scanned from its opening brace
on, that text closes all braces but this one, and it does not end in a string. -/
structure Operation.WellFormed (op : Operation) : Prop where
  name : ∀ n ∈ op.name, isName n.toList = true
  vars : ∀ v ∈ op.variableDefinitions, v.WellFormed
  directives : op.directives = []
  fields : op.selectionSet.fields = []
  trimmed : Text.trim op.selectionSet.body.toList = op.selectionSet.body.toList
  closed : ∃ place, place ≠ .string ∧
    BodyScan.run ⟨.code, 1⟩ op.selectionSet.body.toList = some ⟨place, 1⟩

structure Document.WellFormed (d : Document) : Prop where
  single : ∃ op, d.definitions = [op] ∧ op.WellFormed
  shallow : d.nesting ≤ 64

theorem SpellsType.isWellFormed {input rest : List Char} {t : TypeRef}
    (h : SpellsType input t rest) : t.isWellFormed = true := by
  induction h with
  | named hname => exact hname.isName
  | list _ _ _ ih => exact ih
  | nonNull _ hnull _ ih => simp [TypeRef.isWellFormed, hnull, ih]

theorem SpellsVariable.wellFormed {input rest : List Char} {v : VariableDefinition}
    (h : SpellsVariable input v rest) : v.WellFormed := by
  cases h with
  | mk hdollar hname hcolon ht hvalue hend =>
    refine ⟨hname.isName, ht.isWellFormed, ?_, rfl⟩
    cases hvalue with
    | absent => simp
    | given _ ha => simpa using ha.isWellFormed

theorem SpellsHeader.isName {input rest : List Char} {kind : OperationKind} {name : Option String}
    (h : SpellsHeader input kind name rest) : ∀ n ∈ name, isName n.toList = true := by
  cases h with
  | absent => simp
  | keyword => simp
  | named _ hname => simpa using hname.isName
  | bareName hname => simpa using hname.isName

theorem SpellsOperation.wellFormed {input rest : List Char} {op : Operation}
    (h : SpellsOperation input op rest) : op.WellFormed := by
  cases h with
  | mk hheader hvariables hopen hbody =>
    refine ⟨hheader.isName, ?_, rfl, rfl, ?_, ?_⟩
    · cases hvariables with
      | absent => simp
      | given _ heach _ => exact heach.forall_mem fun _ _ _ _ hv => hv.wellFormed
    · simp [SelectionSet.ofBody, Text.trim_trim]
    · simpa [SelectionSet.ofBody] using BodyScan.run_trim hbody

theorem SpellsDocument.exists_wellFormed {source : List Char} {d : Document}
    (h : SpellsDocument source d) : ∃ op, d.definitions = [op] ∧ op.WellFormed := by
  cases h with
  | mk hop _ => exact ⟨_, rfl, hop.wellFormed⟩

end QueryDoc
