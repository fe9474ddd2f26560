import QueryDoc.Proofs.Source.Stretch
import QueryDoc.Diagnostic.ReadError

/-! What stands in the text at the places to which an error points. -/

namespace QueryDoc

/-- What an error is about, in terms of the text: `main` holds of the stretch that its own span
marks, and `noted` of those that the spans of its notes mark. -/
def Cause.Names (source : List Char) (main noted : Stretch → Prop) : Cause → Prop
  | unexpectedCharacter expected found =>
    (∃ before, main ⟨before, [found]⟩) ∨
    -- A word in place of a keyword is marked as far as it goes.
    ∃ before word after keyword, main ⟨before, word⟩ ∧ source = before ++ (word ++ after) ∧
      isName word = true ∧ EndsRun isNameContinue after ∧ found ∈ word ∧
      expected = [keyword] ∧ keyword ∈ ["true", "false", "null"] ∧ word ≠ keyword.toList
  | unexpectedEnd _ => main ⟨source, []⟩
  | invalidNumber text => ∃ before, main ⟨before, text.toList⟩
  | unterminatedString =>
    ∃ before after, main ⟨before, ['"']⟩ ∧ source = before ++ '"' :: after ∧ '"' ∉ after
  | duplicateField name =>
    ∃ first before, noted ⟨first, name.toList⟩ ∧ main ⟨before, name.toList⟩ ∧
      first ++ name.toList <+: before
  | emptyConstruct _ => ∃ before, main ⟨before, [')']⟩
  | unclosed delimiter => main ⟨source, []⟩ ∧ ∃ before, noted ⟨before, delimiter.toList⟩
  | nestedTooDeep _ => main ⟨source, []⟩ ∨ ∃ before c, main ⟨before, [c]⟩
  | unsupported .variableDirectives => ∃ before, main ⟨before, ['@']⟩
  | unsupported .operationDirectives => ∃ before, main ⟨before, ['@']⟩
  | unsupported .fragmentDefinitions => ∃ before, main ⟨before, "fragment".toList⟩
  | unsupported .multipleDefinitions =>
    ∃ before c, main ⟨before, [c]⟩ ∧ (c = '{' ∨ isNameStart c = true)

theorem Cause.Names.imp {source : List Char} {main noted noted' : Stretch → Prop} {cause : Cause}
    (h : cause.Names source main noted) (hnoted : ∀ x, noted x → noted' x) :
    cause.Names source main noted' := by
  cases cause with
  | duplicateField name =>
    obtain ⟨first, before, hfirst, hrest⟩ := h
    exact ⟨first, before, hnoted _ hfirst, hrest⟩
  | unclosed delimiter =>
    obtain ⟨hmain, before, hopening⟩ := h
    exact ⟨hmain, before, hnoted _ hopening⟩
  | unsupported feature => cases feature <;> exact h
  | _ => exact h

namespace ReadError

def spans (e : ReadError) : List Span :=
  e.span :: e.notes.filterMap (·.span)

/-- The spans of an error lie in the text, under the name of its file, and mark there what the error
is about. -/
structure PointsInto (e : ReadError) (source : List Char) (file : Option String) : Prop where
  file : ∀ span ∈ e.spans, span.file = file
  marks : ∀ span ∈ e.spans, ∃ x, span.Marks source x
  bounds : ∀ span ∈ e.spans,
    span.start.offset ≤ span.stop.offset ∧ span.stop.offset ≤ byteLength source
  names : e.cause.Names source (e.span.Marks source) fun x =>
    ∃ note ∈ e.notes, ∃ span ∈ note.span, span.Marks source x

/-- The error that a text in another file would give. -/
def inFile (file : Option String) (e : ReadError) : ReadError :=
  { e with
    span := { e.span with file }
    notes := e.notes.map fun note => { note with span := note.span.map ({ · with file }) } }

/-- Errors that say the same of places with the same lines and columns. -/
structure Alike (e e' : ReadError) : Prop where
  message : e.message = e'.message
  cause : e.cause = e'.cause
  span : e.span.Alike e'.span
  notes : List.Forall₂ (fun note note' => note.kind = note'.kind ∧ note.message = note'.message ∧
    Option.Rel Span.Alike note.span note'.span) e.notes e'.notes

/-- The character that is reported stands in the word. -/
theorem exists_found_of_wrongKeyword (keyword : List Char) {word : List Char} (h : word ≠ [])
    (span : Span) : ∃ found ∈ word, (wrongKeyword keyword word span).cause =
      .unexpectedCharacter [String.ofList keyword] found := by
  refine ⟨_, ?_, rfl⟩
  cases hdiffering : (word.zip keyword).find? fun pair => pair.1 != pair.2 with
  | some pair => exact (List.of_mem_zip (List.mem_of_find?_eq_some hdiffering)).1
  | none =>
    cases hafter : word.drop keyword.length with
    | cons c cs =>
      have hmem : c ∈ word.drop keyword.length := hafter ▸ List.mem_cons_self
      exact List.mem_of_mem_drop hmem
    | nil =>
      cases word with
      | nil => exact absurd rfl h
      | cons c cs => exact List.mem_cons_self

end ReadError

end QueryDoc
