import QueryDoc.Proofs.Continuation.Operation
import QueryDoc.Proofs.Document.Reading

/-! Documents whose text goes on on its next line: an error that is no missing end is final. -/

namespace QueryDoc.Document

open ReadM Scanner

variable {more : List Char} {s : Scanner}

theorem finish_keepsUp : KeepsUp more finish finish s := by
  refine Token.peek?_bind_keepsUp (fun c? s₁ => InStep.keepsUp ?_) (StaysAtEnd.pure ())
  cases c? with
  | none => exact .pure ()
  | some c =>
    dsimp only
    split
    · have hagrees : (ReadError.unsupported .multipleDefinitions s₁.nextSpan).Agrees
          (.unsupported .multipleDefinitions (s₁.followedBy more).nextSpan) := by
        refine ⟨rfl, rfl, rfl, ?_⟩
        simp only [ReadError.unsupported, nextSpan_start]
        rfl
      exact .failWith fun _ => hagrees.addNote _
    · refine .failWith fun hdefinite => ?_
      split
      · next hc =>
        rw [if_pos hc] at hdefinite
        exact (unexpected_agrees hdefinite).addNote _
      · next hc =>
        rw [if_neg hc] at hdefinite
        exact unexpected_agrees hdefinite

theorem read_keepsUp (hmore : EndsRun (!isLineEnd ·) more) (limit : Nat) :
    KeepsUp more (read limit) (read limit) s := by
  refine (Operation.read_inStep hmore limit).bind_keepsUp fun op s₁ _ => ?_
  exact finish_keepsUp.bind (fun _ s₂ _ => (InStep.pure _).keepsUp) fun _ => .pure _

theorem parse_eq_error_iff {source : List Char} {options : ReadOptions} {e : ReadError} :
    parse source options = .error e ↔
      ∃ s', read options.depth (Scanner.start source options.file) = .error e s' := by
  rw [parse, onText]
  cases read options.depth (Scanner.start source options.file) <;> simp

theorem exists_parse_append_eq_error {source : List Char} {options : ReadOptions} {e : ReadError}
    (h : parse source options = .error e) (hdefinite : e.isIncomplete = false) (more : List Char) :
    ∃ e', parse (source ++ '\n' :: more) options = .error e' ∧ e.Agrees e' := by
  have hmore : EndsRun (!isLineEnd ·) ('\n' :: more) := endsRun_cons.mpr (by decide)
  obtain ⟨s₁, he⟩ := parse_eq_error_iff.mp h
  obtain ⟨e', s₂, he', hagrees⟩ := (read_keepsUp hmore options.depth).error he hdefinite
  exact ⟨e', parse_eq_error_iff.mpr ⟨s₂, he'⟩, hagrees⟩

end QueryDoc.Document
