import QueryDoc.Proofs.Selection.Reading

/-! How far a selection set is read, whatever follows its opening brace. The scan comes to the brace
that closes the selection set, or it comes to the end of the text, in a string or outside of one. Each
of the three decides what the reader does. -/

namespace QueryDoc.SelectionSet

open BodyScan ReadM

variable {opening : Span} {turns depth : Nat} {s s' : Scanner} {e : ReadError}

/-- The brace right after `body` is the first one that leaves no brace open. -/
def ClosesAfter (inside body : List Char) : Prop :=
  ∃ rest, inside = body ++ '}' :: rest ∧ run ⟨.code, 1⟩ body = some ⟨.code, 1⟩

/-- The scan comes to a quote right after `text` that opens a string, and there is no further quote. -/
def StuckAfter (inside text : List Char) : Prop :=
  ∃ after d, inside = text ++ '"' :: after ∧ run ⟨.code, 1⟩ text = some ⟨.code, d⟩ ∧ '"' ∉ after

theorem read_of_skipBody_error {inside : List Char} (h : significant s.rest = '{' :: inside)
    (hskip : skipBody s.skipIgnored.nextSpan (inside.length + 1) 0 s.skipIgnored.advance =
      .error e s') : read s = .error e s' := by
  have hopen := Token.literal_of_singleton "\x7b" h (by rfl)
  have hget (t : Scanner) : (get : ReadM Scanner) t = .ok t t := rfl
  have hinside : s.skipIgnored.advance.rest = inside := by simp [h]
  rw [← hinside] at hskip
  rw [read, bind_of_ok hopen, bind_of_ok (hget _), bind_of_error hskip]

section Outcomes

variable {source before inside : List Char} (hs : s.skipIgnored.StandsAfter source before)
  (hbrace : s.skipIgnored.rest = '{' :: inside)

include hs hbrace

theorem read_of_closesAfter {body : List Char} (h : ClosesAfter inside body) :
    ∃ s', read s = .ok (.ofBody (String.ofList (Text.trim body))) s' ∧
      s'.StandsAfter source (before ++ '{' :: (body ++ ['}'])) := by
  obtain ⟨rest, rfl, hbody⟩ := h
  have hsplit : s.skipIgnored.rest = '{' :: (body ++ ['}']) ++ rest := by
    rw [hbrace, List.cons_append, List.append_assoc]
    rfl
  have hend := hs.advanceBy_length hsplit
  rw [List.length_cons, List.length_append] at hend
  exact ⟨_, read_of_run (s.rest_skipIgnored ▸ hbrace) hbody, hend⟩

theorem read_of_stuckAfter {text : List Char} (h : StuckAfter inside text) :
    ∃ s', read s = .error (.unterminatedString (.across s.file ⟨before ++ '{' :: text, ['"']⟩)) s' := by
  obtain ⟨after, d, rfl, htext, hafter⟩ := h
  obtain ⟨d, rfl⟩ := Nat.exists_eq_add_of_le' (depth_pos_of_run Nat.zero_lt_one htext)
  have hinside : s.skipIgnored.advance.rest = text ++ '"' :: after := by
    rw [Scanner.rest_advance, hbrace, List.tail_cons]
  have hsplit : s.skipIgnored.rest = '{' :: text ++ '"' :: after := hbrace
  have hat : (s.skipIgnored.advance.advanceBy text.length).StandsAfter source (before ++ '{' :: text) :=
    hs.advanceBy_length hsplit
  have hquote : (s.skipIgnored.advance.advanceBy text.length).rest = '"' :: after := by
    rw [Scanner.rest_advanceBy, hinside, List.drop_left]
  have hfile : (s.skipIgnored.advance.advanceBy text.length).file = s.file := by
    simp [Scanner.skipIgnored]
  have hturns : text.length < (text ++ '"' :: after).length + 1 := by
    rw [List.length_append]
    omega
  have hskip : skipBody s.skipIgnored.nextSpan _ 0 _ = .error _ _ :=
    skipBody_stuck htext hturns hinside hafter
  rw [hat.nextSpan_eq hquote, hfile] at hskip
  exact ⟨_, read_of_skipBody_error (s.rest_skipIgnored ▸ hbrace) hskip⟩

theorem read_of_unclosed (hclosed : ∀ body, ¬ClosesAfter inside body)
    (hstuck : ∀ text, ¬StuckAfter inside text) :
    ∃ s', read s = .error (s'.unclosed "\x7b" (.across s.file ⟨before, ['{']⟩)) s' ∧
      s'.StandsAfter source source := by
  have hinside : s.skipIgnored.advance.rest = inside := by
    rw [Scanner.rest_advance, hbrace, List.tail_cons]
  have hsplit : s.skipIgnored.rest = '{' :: inside ++ [] := by rw [hbrace, List.append_nil]
  have hsource : before ++ '{' :: inside = source := by rw [← hbrace, hs.split]
  have hend := hs.advanceBy_length hsplit
  rw [hsource] at hend
  have hfile : s.skipIgnored.file = s.file := Scanner.file_advanceBy _ _
  rcases run_outcomes 0 inside with ⟨body, hbody⟩ | ⟨text, after, d, htext⟩ | ⟨last, hrun, hlast⟩
  · exact absurd hbody (hclosed body)
  · exact absurd ⟨after, d + 1, htext⟩ (hstuck text)
  · have hskip : skipBody s.skipIgnored.nextSpan _ 0 _ = .error _ _ :=
      skipBody_unclosed hrun hlast (Nat.lt_succ_self _) hinside
    have hread := read_of_skipBody_error (s.rest_skipIgnored ▸ hbrace) hskip
    rw [hs.nextSpan_eq hbrace, hfile] at hread
    exact ⟨_, hread, hend⟩

end Outcomes

/-- For any text after the opening brace, a selection set is read exactly if there is a brace that
closes it, which is then the last character read. Otherwise the error is about the string in which the
scan gets stuck, or else about the opening brace. -/
theorem read_scan {source passed inside : List Char} (hs : s.StandsAfter source passed)
    (h : significant s.rest = '{' :: inside) :
    ∃ before, source = before ++ '{' :: inside ∧
      ((∃ set s', read s = .ok set s') ↔ ∃ body, ClosesAfter inside body) ∧
      (∀ body, ClosesAfter inside body →
        ∃ s', read s = .ok (.ofBody (String.ofList (Text.trim body))) s' ∧
          s'.StandsAfter source (before ++ '{' :: (body ++ ['}']))) ∧
      (∀ text, StuckAfter inside text →
        ∃ s', read s =
          .error (.unterminatedString (.across s.file ⟨before ++ '{' :: text, ['"']⟩)) s') ∧
      ((∀ body, ¬ClosesAfter inside body) → (∀ text, ¬StuckAfter inside text) →
        ∃ s', read s = .error (s'.unclosed "\x7b" (.across s.file ⟨before, ['{']⟩)) s' ∧
          s'.StandsAfter source source) := by
  obtain ⟨ignored, hat⟩ : ∃ ignored, s.skipIgnored.StandsAfter source (passed ++ ignored) :=
    hs.move .skipIgnored
  have hbrace : s.skipIgnored.rest = '{' :: inside := by rw [Scanner.rest_skipIgnored, h]
  refine ⟨passed ++ ignored, by rw [← hat.split, hbrace], ⟨?_, ?_⟩,
    fun _ => read_of_closesAfter hat hbrace, fun _ => read_of_stuckAfter hat hbrace,
    read_of_unclosed hat hbrace⟩
  · rintro ⟨set, s', hread⟩
    by_contra hno
    by_cases hstuck : ∃ text, StuckAfter inside text
    · obtain ⟨text, htext⟩ := hstuck
      obtain ⟨t, ht⟩ := read_of_stuckAfter hat hbrace htext
      cases hread.symm.trans ht
    · obtain ⟨t, ht, -⟩ := read_of_unclosed hat hbrace (not_exists.mp hno) (not_exists.mp hstuck)
      cases hread.symm.trans ht
  · rintro ⟨body, hbody⟩
    obtain ⟨s', hread, -⟩ := read_of_closesAfter hat hbrace hbody
    exact ⟨_, s', hread⟩

theorem read_scan_hidden_braces :
    ∃ s', read (Scanner.start "\x7ba \"\x7d\" #\x7d\n\x7db".toList) = .ok (.ofBody "a \"\x7d\" #\x7d") s' ∧
      s'.rest = ['b'] := by
  obtain ⟨before, hsource, -, hclosed, -⟩ :=
    read_scan (Scanner.standsAfter_start "\x7ba \"\x7d\" #\x7d\n\x7db".toList none) (by rfl)
  obtain ⟨s', hread, hat⟩ := hclosed "a \"\x7d\" #\x7d\n".toList ⟨['b'], rfl, rfl⟩
  refine ⟨s', hread, ?_⟩
  have hbefore : before = [] := List.self_eq_append_left.mp hsource
  have hsplit := hat.split
  rw [hbefore] at hsplit
  exact List.append_cancel_left (hsplit.trans (by rfl))

end QueryDoc.SelectionSet
