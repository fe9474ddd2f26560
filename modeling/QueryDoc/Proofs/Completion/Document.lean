import QueryDoc.Proofs.Completion.Operation
import QueryDoc.Proofs.Continuation.Document

/-! Every text that is refused because its end is missing can be completed to a document. -/

namespace QueryDoc.Document

open ReadM

variable {limit : Nat} {s s' : Scanner} {e : ReadError}

theorem finish_error (h : finish s = .error e s') : e.isIncomplete = false := by
  cases hs : significant s.rest with
  | nil => cases h.symm.trans (finish_ok_iff.mpr ⟨rfl, hs⟩)
  | cons c cs =>
    obtain ⟨e', he', -, hcause⟩ := finish_of_cons hs
    cases h.symm.trans he'
    rw [ReadError.isIncomplete, hcause]
    split <;> rfl

/-- If a text is refused because its end is missing, something on its next line makes a document of it.
One level more is allowed, for the value of a key on the deepest level. -/
theorem exists_completion (source : List Char) (options : ReadOptions) (e : ReadError)
    (h : parse source options = .error e) (he : e.isIncomplete = true) :
    ∃ more d, parse (source ++ '\n' :: more) { options with depth := options.depth + 1 } = .ok d := by
  obtain ⟨s', hread⟩ := parse_eq_error_iff.mp h
  rcases bind_error_iff.mp hread with hread | ⟨op, s₁, -, hread⟩
  · obtain ⟨more, hmore⟩ := Operation.read_completes hread he
    have hends : EndsVariable [] := ⟨.nil _, by decide⟩
    obtain ⟨op, hop, hlevels⟩ := hmore [] hends
    rw [List.append_nil] at hop
    refine ⟨more, { definitions := [op] }, parse_ok_iff.mpr ⟨.mk hop (.done []), ?_⟩⟩
    simpa [nesting_le_iff] using hlevels
  · rcases bind_error_iff.mp hread with hread | ⟨u, s₂, -, hread⟩
    · rw [finish_error hread] at he
      cases he
    · cases hread

theorem exists_completion_deepest_key :
    ∃ more d, parse ("query($a: T = \x7bk".toList ++ '\n' :: more) { depth := 2 } = .ok d := by
  obtain ⟨e, h, he⟩ : ∃ e, parse "query($a: T = \x7bk".toList { depth := 1 } = .error e ∧
      e.isIncomplete = true := ⟨_, rfl, rfl⟩
  exact exists_completion _ { depth := 1 } e h he

end QueryDoc.Document
