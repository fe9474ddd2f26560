import QueryDoc.Document
import QueryDoc.Proofs.Document.WellFormed
import QueryDoc.Proofs.Operation.Reading

/-! The documents that are read are those that the grammar spells, as far as their values and types
nest no deeper than allowed. -/

namespace QueryDoc

open ReadM

namespace Document

variable {limit : Nat} {s s' : Scanner}

theorem finish_ok_iff : finish s = .ok () s' ↔ s' = s.skipIgnored ∧ significant s.rest = [] := by
  rw [finish, bind_of_ok (Token.peek?_eq s)]
  cases hs : significant s.rest with
  | nil =>
    change EStateM.Result.ok () s.skipIgnored = _ ↔ _
    simp [eq_comm]
  | cons c cs =>
    simp only [List.head?_cons]
    split <;> simp [failWith]

/-- Anything that is left is an error about its first character. -/
theorem finish_of_cons {c : Char} {cs : List Char} (h : significant s.rest = c :: cs) :
    ∃ e, finish s = .error e s.skipIgnored ∧ e.span = s.skipIgnored.nextSpan ∧
      e.cause = if c = '{' ∨ isNameStart c = true then .unsupported .multipleDefinitions
        else .unexpectedCharacter ["end of input"] c := by
  have hpeek : s.skipIgnored.peek? = some c := by
    rw [Scanner.peek?, Scanner.rest_skipIgnored, h, List.head?_cons]
  rw [finish, bind_of_ok (Token.peek?_eq s), h, List.head?_cons]
  dsimp only
  split
  · exact ⟨_, rfl, rfl, rfl⟩
  · refine ⟨_, rfl, ?_, ?_⟩ <;>
    · simp only [Scanner.unexpected, hpeek]
      split <;> rfl

theorem read_ok {d : Document} (h : read limit s = .ok d s') :
    SpellsDocument s.rest d ∧ d.nesting ≤ limit := by
  obtain ⟨op, s₁, hop, h⟩ := bind_ok_iff.mp h
  obtain ⟨u, s₂, hfinish, h⟩ := bind_ok_iff.mp h
  obtain ⟨rfl, rfl⟩ := pure_ok_iff.mp h
  obtain ⟨rest, ⟨hspells, hlevels⟩, hrest⟩ := Operation.read_sound limit hop
  obtain ⟨-, hend⟩ := finish_ok_iff.mp hfinish
  exact ⟨.mk hspells (hrest.trans (ignored_nil_iff.mpr hend)),
    nesting_le_iff.mpr (by simpa using hlevels)⟩

theorem read_of_spells {d : Document} (h : SpellsDocument s.rest d) (hlevels : d.nesting ≤ limit) :
    ∃ s', read limit s = .ok d s' := by
  cases h with
  | @mk rest op hop hend =>
    have hle : op.nesting ≤ limit := nesting_le_iff.mp hlevels op List.mem_cons_self
    obtain ⟨s₁, hread, hs₁⟩ := Operation.read_reaches hop hle rfl
    have hfinish := finish_ok_iff.mpr ⟨rfl, hs₁.trans (ignored_nil_iff.mp hend)⟩
    exact ⟨s₁.skipIgnored, by rw [read, bind_of_ok hread, bind_of_ok hfinish]; rfl⟩

theorem parse_ok_iff {source : List Char} {options : ReadOptions} {d : Document} :
    parse source options = .ok d ↔ SpellsDocument source d ∧ d.nesting ≤ options.depth := by
  rw [parse, onText_ok_iff]
  constructor
  · rintro ⟨s', h⟩
    simpa using read_ok h
  · rintro ⟨h, hlevels⟩
    exact read_of_spells (by simpa using h) hlevels

/-- What is read does not depend on the file. -/
theorem parse_file_ok_iff {source : List Char} {file : Option String} {d : Document} :
    parse source { file } = .ok d ↔ parse source = .ok d := by
  rw [parse_ok_iff, parse_ok_iff]

end Document

/-- The grammar is not ambiguous. -/
theorem SpellsDocument.unique {source : List Char} {d e : Document} (hd : SpellsDocument source d)
    (he : SpellsDocument source e) : d = e := by
  have hd' : Document.parse source { depth := max d.nesting e.nesting } = .ok d :=
    Document.parse_ok_iff.mpr ⟨hd, Nat.le_max_left _ _⟩
  have he' : Document.parse source { depth := max d.nesting e.nesting } = .ok e :=
    Document.parse_ok_iff.mpr ⟨he, Nat.le_max_right _ _⟩
  rw [hd'] at he'
  exact Except.ok.inj he'

/-- A document that is spelled has one operation, with nothing but a text in its selection set and
without directives. -/
theorem SpellsDocument.plain {source : List Char} {d : Document} (h : SpellsDocument source d) :
    ∃ op, d.definitions = [op] ∧ op.directives = [] ∧ op.selectionSet.fields = [] ∧
      ∀ v ∈ op.variableDefinitions, v.directives = [] := by
  obtain ⟨op, hop, hwell⟩ := h.exists_wellFormed
  exact ⟨op, hop, hwell.directives, hwell.fields, fun v hv => (hwell.vars v hv).directives⟩

namespace Document

/-- Reading is the grammar: a text is read as a document exactly if the grammar spells that document
and it nests no deeper than allowed. What a text denotes is settled, and it is one plain operation. -/
theorem parse_eq_ok_iff_spells (source : List Char) (options : ReadOptions) (d : Document) :
    (parse source options = .ok d ↔ SpellsDocument source d ∧ d.nesting ≤ options.depth) ∧
    (SpellsDocument source d → (∀ e, SpellsDocument source e → e = d) ∧
      ∃ op, d.definitions = [op] ∧ op.directives = [] ∧ op.selectionSet.fields = [] ∧
        ∀ v ∈ op.variableDefinitions, v.directives = []) :=
  ⟨parse_ok_iff, fun h => ⟨fun _ he => he.unique h, h.plain⟩⟩

theorem spells_of_parse_comment :
    SpellsDocument "query Q\x7ba #\x7d\n\x7d".toList
      { definitions := [{ name := "Q", selectionSet := .ofBody "a #\x7d" }] } ∧
    ¬SpellsDocument "query Q\x7ba #\x7d\n\x7d".toList
      { definitions := [{ name := "Q", selectionSet := .ofBody "a #" }] } := by
  have hread : parse "query Q\x7ba #\x7d\n\x7d".toList =
      .ok { definitions := [{ name := "Q", selectionSet := .ofBody "a #\x7d" }] } := rfl
  have hspells := ((parse_eq_ok_iff_spells _ {} _).1.mp hread).1
  refine ⟨hspells, fun he => ?_⟩
  have heq := ((parse_eq_ok_iff_spells _ {} _).2 hspells).1 _ he
  simp [SelectionSet.ofBody] at heq

end Document

end QueryDoc
