import QueryDoc.Proofs.Reading.Token
import QueryDoc.Proofs.Selection.Body
import QueryDoc.Selection

/-! Reading a selection set passes over exactly the text that a scan of its inside accepts up to the
brace that closes it. -/

namespace QueryDoc.SelectionSet

open ReadM BodyScan

variable {opening : Span} {turns depth : Nat} {s s' : Scanner}

theorem skipBody_succ (opening : Span) (turns depth : Nat) (s : Scanner) :
    skipBody opening (turns + 1) depth s = (match s.peek? with
      | none => failWith (·.unclosed "\x7b" opening)
      | some '{' => do
        modify Scanner.advance
        skipBody opening turns (depth + 1)
      | some '}' =>
        match depth with
        | 0 => return ()
        | depth + 1 => do
          modify Scanner.advance
          skipBody opening turns depth
      | some '"' => do
        let _ ← Token.string
        skipBody opening turns depth
      | some '#' => do
        modify Scanner.skipComment
        skipBody opening turns depth
      | some _ => do
        modify Scanner.advance
        skipBody opening turns depth : ReadM Unit) s := by
  rw [skipBody.eq_def]
  rfl

theorem skipBody_open {cs : List Char} (h : s.rest = '{' :: cs) :
    skipBody opening (turns + 1) depth s = skipBody opening turns (depth + 1) s.advance := by
  rw [skipBody_succ, Scanner.peek?, h]
  rfl

theorem skipBody_close {cs : List Char} (h : s.rest = '}' :: cs) :
    skipBody opening (turns + 1) (depth + 1) s = skipBody opening turns depth s.advance := by
  rw [skipBody_succ, Scanner.peek?, h]
  rfl

theorem skipBody_close_last {cs : List Char} (h : s.rest = '}' :: cs) :
    skipBody opening (turns + 1) 0 s = .ok () s := by
  rw [skipBody_succ, Scanner.peek?, h]
  rfl

theorem skipBody_quote {cs : List Char} (h : s.rest = '"' :: cs) :
    skipBody opening (turns + 1) depth s =
      (Token.string >>= fun _ => skipBody opening turns depth : ReadM Unit) s := by
  rw [skipBody_succ, Scanner.peek?, h]
  rfl

theorem skipBody_number_sign {cs : List Char} (h : s.rest = '#' :: cs) :
    skipBody opening (turns + 1) depth s = skipBody opening turns depth s.skipComment := by
  rw [skipBody_succ, Scanner.peek?, h]
  rfl

theorem skipBody_plain {c : Char} {cs : List Char} (hc : c ∉ ['{', '}', '"', '#'])
    (h : s.rest = c :: cs) :
    skipBody opening (turns + 1) depth s = skipBody opening turns depth s.advance := by
  simp only [List.mem_cons, List.not_mem_nil, or_false, not_or] at hc
  rw [skipBody_succ, Scanner.peek?, h, List.head?_cons]
  -- No pattern but the last one matches.
  cases depth <;> split <;> simp_all <;> rfl

theorem skipBody_end (h : s.rest = []) :
    skipBody opening (turns + 1) depth s = .error (s.unclosed "\x7b" opening) s := by
  rw [skipBody_succ, Scanner.peek?, h]
  rfl

theorem skipComment_eq {text cs : List Char} (h : s.rest = '#' :: (text ++ cs))
    (htext : ∀ c ∈ text, isLineEnd c = false) (hcs : EndsRun (!isLineEnd ·) cs) :
    s.skipComment = s.advanceBy (text.length + 1) := by
  have hline : ∀ c ∈ '#' :: text, (!isLineEnd c) = true :=
    List.forall_mem_cons.mpr ⟨by decide, by simpa using htext⟩
  rw [Scanner.skipComment, Scanner.skipRun, Scanner.run, h, ← List.cons_append,
    takeWhile_append_of_endsRun hline hcs, List.length_cons]

theorem length_skipComment_lt {s : Scanner} {cs : List Char} (h : s.rest = '#' :: cs) :
    s.skipComment.rest.length < s.rest.length := by
  have hsuffix := (List.dropWhile_suffix (!isLineEnd ·) (l := cs)).length_le
  rw [Scanner.skipComment, Scanner.rest_skipRun, h, List.dropWhile_cons_of_pos (by decide),
    List.length_cons]
  omega

theorem length_lt_of_string {s t : Scanner} {text : String} (h : Token.string s = .ok text t) :
    t.rest.length < s.rest.length := by
  have hlen := congrArg List.length (Token.string_ok h).1
  have hle := (ignored_significant s.rest).suffix.length_le
  simp only [List.length_cons, List.length_append] at hlen
  omega

/-- A text that leads a scan from code back to code is passed over, and the turns that are left are
enough for one more. -/
theorem skipBody_passes {text rest : List Char} {last : Nat}
    (h : run ⟨.code, depth + 1⟩ text = some ⟨.code, last + 1⟩) (hturns : text.length < turns)
    (hs : s.rest = text ++ rest) :
    ∃ left, skipBody opening turns depth s =
      skipBody opening (left + 1) last (s.advanceBy text.length) := by
  induction turns generalizing depth s text with
  | zero => omega
  | succ turns ih =>
    cases text with
    | nil =>
      cases h
      exact ⟨turns, rfl⟩
    | cons c text =>
      rw [List.length_cons] at hturns
      have hadvance : s.advance.rest = text ++ rest := by simp [hs]
      by_cases hplain : c ∉ ['{', '}', '"', '#']
      · rw [skipBody_plain hplain hs]
        rw [run_plain hplain] at h
        exact ih h (by omega) hadvance
      simp only [List.mem_cons, List.not_mem_nil, or_false, not_not] at hplain
      rcases hplain with rfl | rfl | rfl | rfl
      · rw [skipBody_open hs]
        exact ih h (by omega) hadvance
      · cases depth with
        | zero => cases h
        | succ depth =>
          rw [skipBody_close hs]
          exact ih h (by omega) hadvance
      · obtain ⟨inside, text, rfl, hinside, hrun⟩ := exists_quote_of_run (run_quote depth text ▸ h)
        rw [List.cons_append, List.append_assoc, List.cons_append] at hs
        simp only [List.length_append, List.length_cons] at hturns
        have hrest : (s.advanceBy (inside.length + 2)).rest = text ++ rest := by simp [hs]
        obtain ⟨left, hleft⟩ := ih hrun (by omega) hrest
        refine ⟨left, ?_⟩
        rw [skipBody_quote hs, bind_of_ok (Token.string_of_rest hs hinside), hleft,
          ← Scanner.advanceBy_add]
        simp [Nat.add_comm, Nat.add_left_comm]
      · obtain ⟨inside, e, text, rfl, hinside, he, hrun⟩ :=
          exists_line_end_of_run (run_number_sign depth text ▸ h)
        rw [List.cons_append, List.append_assoc] at hs
        simp only [List.length_append, List.length_cons] at hturns
        have hends : EndsRun (!isLineEnd ·) (e :: text ++ rest) := endsRun_cons.mpr (by simpa using he)
        have hrest : (s.advanceBy (inside.length + 1)).rest = e :: text ++ rest := by simp [hs]
        rw [← run_plain (not_mem_of_isLineEnd he)] at hrun
        obtain ⟨left, hleft⟩ := ih hrun (by simp only [List.length_cons]; omega) hrest
        refine ⟨left, ?_⟩
        rw [skipBody_number_sign hs, skipComment_eq hs hinside hends, hleft, ← Scanner.advanceBy_add]
        simp [Nat.add_comm, Nat.add_left_comm]

theorem skipBody_of_run {body rest : List Char}
    (h : run ⟨.code, depth + 1⟩ body = some ⟨.code, 1⟩) (hturns : body.length < turns)
    (hs : s.rest = body ++ '}' :: rest) :
    skipBody opening turns depth s = .ok () (s.advanceBy body.length) := by
  obtain ⟨left, hleft⟩ := skipBody_passes h hturns hs
  rw [hleft, skipBody_close_last (by rw [Scanner.rest_advanceBy, hs, List.drop_left])]

theorem skipBody_stuck {text after : List Char} {last : Nat}
    (h : run ⟨.code, depth + 1⟩ text = some ⟨.code, last + 1⟩) (hturns : text.length < turns)
    (hs : s.rest = text ++ '"' :: after) (hafter : '"' ∉ after) :
    skipBody opening turns depth s = .error (.unterminatedString (s.advanceBy text.length).nextSpan)
      (s.advanceBy text.length).advance := by
  obtain ⟨left, hleft⟩ := skipBody_passes h hturns hs
  have hquote : (s.advanceBy text.length).rest = '"' :: after := by
    rw [Scanner.rest_advanceBy, hs, List.drop_left]
  rw [hleft, skipBody_quote hquote,
    bind_of_error (Token.string_of_rest_unterminated hquote hafter)]

theorem skipBody_at_end (h : s.rest = []) (turns depth : Nat) :
    skipBody opening turns depth s = .error (s.unclosed "\x7b" opening) s := by
  cases turns with
  | zero =>
    rw [skipBody]
    rfl
  | succ turns => exact skipBody_end h

theorem skipBody_unclosed {rest : List Char} {last : BodyScan}
    (h : run ⟨.code, depth + 1⟩ rest = some last) (hlast : last.place ≠ .string)
    (hturns : rest.length < turns) (hs : s.rest = rest) :
    skipBody opening turns depth s =
      .error ((s.advanceBy rest.length).unclosed "\x7b" opening) (s.advanceBy rest.length) := by
  have hdepth := depth_pos_of_run (Nat.succ_pos depth) h
  have hend : (s.advanceBy rest.length).rest = [] := by simp [hs]
  obtain ⟨place, d⟩ := last
  obtain ⟨d, rfl⟩ := Nat.exists_eq_add_of_le' hdepth
  cases place with
  | code =>
    obtain ⟨left, hleft⟩ := skipBody_passes h hturns (hs.trans (List.append_nil rest).symm)
    rw [hleft, skipBody_at_end hend]
  | string => exact absurd rfl hlast
  | comment =>
    cases enters_of_run rfl h with
    | @comment front text _ hfront htext =>
      have hlength : (front ++ '#' :: text).length = front.length + (text.length + 1) := by simp
      have hfront_lt : front.length < turns := by omega
      obtain ⟨left, hleft⟩ := skipBody_passes hfront hfront_lt hs
      have hsign : (s.advanceBy front.length).rest = '#' :: (text ++ []) := by simp [hs]
      have hmove : (s.advanceBy front.length).skipComment =
          s.advanceBy (front ++ '#' :: text).length := by
        rw [skipComment_eq hsign htext (.nil _), ← Scanner.advanceBy_add, hlength]
      rw [hleft, skipBody_number_sign hsign, hmove, skipBody_at_end hend]

/-- With turns enough, what is passed over is what the scan accepts: anything else is an error. -/
theorem skipBody_ok (hturns : s.rest.length < turns)
    (h : skipBody opening turns depth s = .ok () s') :
    ∃ body rest, s.rest = body ++ '}' :: rest ∧ s'.rest = '}' :: rest ∧
      run ⟨.code, depth + 1⟩ body = some ⟨.code, 1⟩ := by
  rcases run_outcomes depth s.rest with ⟨body, rest, hs, hbody⟩ | ⟨text, after, e, hs, htext, hafter⟩ |
    ⟨last, hrun, hlast⟩
  · have hlength : body.length < turns := by
      rw [hs, List.length_append] at hturns
      omega
    cases h.symm.trans (skipBody_of_run hbody hlength hs)
    exact ⟨body, rest, hs, by rw [Scanner.rest_advanceBy, hs, List.drop_left], hbody⟩
  · have hlength : text.length < turns := by
      rw [hs, List.length_append] at hturns
      omega
    cases h.symm.trans (skipBody_stuck htext hlength hs hafter)
  · cases h.symm.trans (skipBody_unclosed hrun hlast hturns rfl)

theorem read_of_run {body rest : List Char}
    (h : significant s.rest = '{' :: (body ++ '}' :: rest))
    (hbody : run ⟨.code, 1⟩ body = some ⟨.code, 1⟩) :
    read s = .ok (.ofBody (String.ofList (Text.trim body)))
      (s.skipIgnored.advanceBy (body.length + 2)) := by
  have hopen := Token.literal_of_singleton "\x7b" h (by rfl)
  have hget (t : Scanner) : (get : ReadM Scanner) t = .ok t t := rfl
  generalize hs₁ : s.skipIgnored.advance = s₁ at hopen
  have hrest₁ : s₁.rest = body ++ '}' :: rest := by simp [← hs₁, h]
  have hturns : body.length < s₁.rest.length + 1 := by
    simp only [hrest₁, List.length_append]
    omega
  have hrest₂ : (s₁.advanceBy body.length).rest = '}' :: rest := by
    rw [Scanner.rest_advanceBy, hrest₁, List.drop_left]
  have hclose := Token.literal_of_rest "\x7d" hrest₂ (by decide) (by rfl)
  have htake : s₁.rest.take (s₁.rest.length - (s₁.advanceBy body.length).rest.length) = body := by
    rw [hrest₁, hrest₂, List.length_append, Nat.add_sub_cancel, List.take_left']
    rfl
  have hmove : s.skipIgnored.advanceBy (body.length + 2) = (s₁.advanceBy body.length).advance :=
    hs₁ ▸ s.skipIgnored.advance.advanceBy_add body.length 1
  rw [read, bind_of_ok hopen, bind_of_ok (hget s₁),
    bind_of_ok (skipBody_of_run hbody hturns hrest₁), bind_of_ok (hget _), bind_of_ok hclose, htake,
    hmove]
  rfl

theorem read_ok {set : SelectionSet} (h : read s = .ok set s') :
    ∃ body, Ignored s.rest ('{' :: (body ++ '}' :: s'.rest)) ∧ Balanced body ∧
      set = .ofBody (String.ofList (Text.trim body)) := by
  obtain ⟨opening, s₁, hopen, hread⟩ := bind_ok_iff.mp h
  obtain ⟨_, _, hget, hread⟩ := bind_ok_iff.mp hread
  cases hget
  obtain ⟨u, s₂, hskip, -⟩ := bind_ok_iff.mp hread
  obtain ⟨body, rest, hbody, -, hrun⟩ := skipBody_ok (Nat.lt_succ_self _) hskip
  have hsig : significant s.rest = '{' :: (body ++ '}' :: rest) := by
    rw [Token.literal_ok hopen, hbody]
    rfl
  cases h.symm.trans (read_of_run hsig hrun)
  refine ⟨body, ?_, balanced_iff_run.mpr hrun, rfl⟩
  rw [Scanner.rest_past_enclosed hsig, ← hsig]
  exact ignored_significant s.rest

theorem read_reaches {body rest : List Char}
    (h : significant s.rest = '{' :: (body ++ '}' :: rest)) (hbody : Balanced body) :
    Reaches read s (.ofBody (String.ofList (Text.trim body))) rest :=
  ⟨_, read_of_run h (balanced_iff_run.mp hbody), by rw [Scanner.rest_past_enclosed h]⟩

end QueryDoc.SelectionSet
