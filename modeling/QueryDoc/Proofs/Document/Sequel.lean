import QueryDoc.Proofs.Abreast.Document
import QueryDoc.Proofs.Continuation.Document
import QueryDoc.Proofs.Grammar.Extension

/-! What may follow a complete document. An operation is read without a look at what comes after its
closing brace. So a document stays the same in front of ignored input, and in front of anything else
the error is about the first significant character of what follows. -/

namespace QueryDoc.Document

open ReadM

variable {source : List Char} {options : ReadOptions} {d : Document}

/-- On a text that goes on on its next line, the operation of a document is read as before. -/
theorem exists_operation_of_parse (h : parse source options = .ok d) (more : List Char) :
    ∃ op s, d = { definitions := [op] } ∧
      Operation.read options.depth (.start (source ++ '\n' :: more) options.file) = .ok op s ∧
      Ignored s.rest more := by
  have hmore : EndsRun (!isLineEnd ·) ('\n' :: more) := endsRun_cons.mpr (by decide)
  obtain ⟨s', hread⟩ := onText_ok_iff.mp h
  obtain ⟨op, s, hop, hread⟩ := bind_ok_iff.mp hread
  obtain ⟨u, s₁, hfinish, hread⟩ := bind_ok_iff.mp hread
  obtain ⟨rfl, rfl⟩ := pure_ok_iff.mp hread
  obtain ⟨-, hend⟩ := finish_ok_iff.mp hfinish
  refine ⟨op, s.followedBy ('\n' :: more), rfl, (Operation.read_inStep hmore options.depth).ok hop, ?_⟩
  exact ((ignored_nil_iff.mpr hend).extend hmore).trans (.space (by decide) (.done more))

theorem parse_append_of_ignored (h : parse source options = .ok d) {more : List Char}
    (hmore : Ignored more []) : parse (source ++ '\n' :: more) options = .ok d := by
  obtain ⟨op, s, rfl, hop, hs⟩ := exists_operation_of_parse h more
  have hfinish := finish_ok_iff.mpr ⟨rfl, ignored_nil_iff.mp (hs.trans hmore)⟩
  exact onText_ok_iff.mpr ⟨_, by rw [read, bind_of_ok hop, bind_of_ok hfinish]; rfl⟩

theorem parse_append_of_significant (h : parse source options = .ok d) {more rest : List Char}
    {c : Char} (hmore : significant more = c :: rest) :
    ∃ front e, more = front ++ c :: rest ∧ parse (source ++ '\n' :: more) options = .error e ∧
      e.span = .across options.file ⟨source ++ '\n' :: front, [c]⟩ ∧
      e.cause = if c = '{' ∨ isNameStart c = true then .unsupported .multipleDefinitions
        else .unexpectedCharacter ["end of input"] c := by
  obtain ⟨op, s, -, hop, hs⟩ := exists_operation_of_parse h more
  have hrest : significant s.rest = c :: rest := (significant_eq_of_ignored hs).trans hmore
  obtain ⟨e, he, hspan, hcause⟩ := finish_of_cons hrest
  obtain ⟨front, hfront⟩ := (ignored_significant more).suffix
  rw [hmore] at hfront
  refine ⟨front, e, hfront.symm, ?_, ?_, hcause⟩
  · exact parse_eq_error_iff.mpr ⟨_, by rw [read, bind_of_ok hop, bind_of_error he]⟩
  · obtain ⟨⟨passed, hpassed⟩, hfile⟩ :=
      exists_standsAfter_of_maps (fun R => R.readOperation_agree options.depth) hop
    obtain ⟨ignored, hat⟩ : ∃ ignored, s.skipIgnored.StandsAfter _ (passed ++ ignored) :=
      hpassed.move .skipIgnored
    have hnext : s.skipIgnored.rest = c :: rest := by rw [Scanner.rest_skipIgnored, hrest]
    have hbefore : passed ++ ignored = source ++ '\n' :: front := by
      have hsplit := hat.split
      rw [hnext, ← hfront, ← List.cons_append, ← List.append_assoc source] at hsplit
      exact List.append_cancel_right hsplit
    rw [hspan, hat.nextSpan_eq hnext, hbefore, Scanner.skipIgnored, Scanner.file_advanceBy, hfile]

/-- In front of more text a complete document stays what it is exactly if nothing but ignored input is
added. Otherwise the first significant character is an error, and it depends on that character alone
which one it is. -/
theorem parse_append (source : List Char) (options : ReadOptions) (d : Document)
    (h : parse source options = .ok d) (more : List Char) :
    (parse (source ++ '\n' :: more) options = .ok d ↔ Ignored more []) ∧
    (¬Ignored more [] → ∃ front c rest e,
      more = front ++ c :: rest ∧ significant more = c :: rest ∧
      parse (source ++ '\n' :: more) options = .error e ∧
      e.span = .across options.file ⟨source ++ '\n' :: front, [c]⟩ ∧
      (e.cause = .unsupported .multipleDefinitions ↔ c = '{' ∨ isNameStart c = true) ∧
      (¬(c = '{' ∨ isNameStart c = true) → e.cause = .unexpectedCharacter ["end of input"] c)) := by
  have hcons (hmore : ¬Ignored more []) : ∃ c rest, significant more = c :: rest :=
    List.exists_cons_of_ne_nil (mt ignored_nil_iff.mpr hmore)
  refine ⟨⟨fun hread => ?_, parse_append_of_ignored h⟩, fun hmore => ?_⟩
  · by_contra hmore
    obtain ⟨c, rest, hc⟩ := hcons hmore
    obtain ⟨_, e, -, he, -⟩ := parse_append_of_significant h hc
    cases hread.symm.trans he
  · obtain ⟨c, rest, hc⟩ := hcons hmore
    obtain ⟨front, e, hfront, he, hspan, hcause⟩ := parse_append_of_significant h hc
    refine ⟨front, c, rest, e, hfront, hc, he, hspan, ?_, fun hno => by rw [hcause, if_neg hno]⟩
    by_cases hstart : c = '{' ∨ isNameStart c = true <;> simp [hcause, hstart]

theorem parse_append_open_comment :
    ∃ e, parse "\x7ba\x7d#".toList = .ok { definitions := [{ selectionSet := .ofBody "a" }] } ∧
      parse ("\x7ba\x7d#".toList ++ '\n' :: "#\x7d\nb".toList) = .error e ∧
      e.span = .across none ⟨"\x7ba\x7d#\n#\x7d\n".toList, ['b']⟩ ∧
      e.cause = .unsupported .multipleDefinitions := by
  have hread : parse "\x7ba\x7d#".toList =
      .ok { definitions := [{ selectionSet := .ofBody "a" }] } := rfl
  have hmore : ¬Ignored "#\x7d\nb".toList [] := by
    rw [ignored_nil_iff]
    decide
  obtain ⟨front, c, rest, e, hfront, hc, he, hspan, hcause, -⟩ :=
    (parse_append _ {} _ hread "#\x7d\nb".toList).2 hmore
  obtain ⟨rfl, rfl⟩ := List.cons.inj (show ['b'] = c :: rest from hc)
  obtain rfl : front = "#\x7d\n".toList :=
    (List.append_cancel_right (show "#\x7d\n".toList ++ ['b'] = front ++ ['b'] from hfront)).symm
  exact ⟨e, hread, he, hspan, hcause.mpr (by decide)⟩

end QueryDoc.Document
