import QueryDoc.Proofs.Continuation.Document
import QueryDoc.Session

/-! What an interactive session reports. A session holds the lines of a document that is not
complete yet, none of them blank. Unless a blank line gives up on them, the lines that it reports are
lost for good: no further lines make them a document. -/

namespace QueryDoc

namespace Session

/-- Takes in lines one after the other, up to the first one that is no text. -/
def feed (settings : Settings) (s : Session) :
    List (Except Text.Utf8.Fault (List Char)) → List Event × Except Text.Utf8.Fault Session
  | [] => (promptEvents settings s, .ok s)
  | .error fault :: _ => (promptEvents settings s, .error fault)
  | .ok line :: lines =>
    let (next, events) := s.step settings.style line
    let (more, last) := feed settings next lines
    (promptEvents settings s ++ events ++ more, last)

theorem play_eq (settings : Settings) (s : Session)
    (lines : List (Except Text.Utf8.Fault (List Char))) :
    play settings s lines =
      match feed settings s lines with
      | (events, .error fault) => (events, some fault.message)
      | (events, .ok last) => (events ++ last.close.2 ++ [.record last.close.1.summary], none) := by
  induction lines generalizing s with
  | nil => simp only [play, turn, feed, List.append_assoc]
  | cons line lines ih =>
    cases line with
    | error fault => simp only [play, turn, feed, List.append_nil]
    | ok line =>
      simp only [play, turn, ih, feed]
      rcases feed settings (s.step settings.style line).1 lines with ⟨events, fault | last⟩
      · rfl
      · simp only [List.append_assoc]

/-- A run feeds the lines of its input to a new session and closes it, unless a line is no text. -/
theorem run_eq (settings : Settings) (input : List UInt8) :
    run settings input =
      match feed settings {} (inputLines input) with
      | (events, .error fault) => outcome events (some fault.message)
      | (events, .ok s) => outcome (events ++ s.close.2 ++ [.record s.close.1.summary]) none := by
  rw [run, play_eq]
  rcases feed settings {} (inputLines input) with ⟨events, fault | s⟩ <;> rfl

def joined (lines : List (List Char)) : List Char :=
  separated ['\n'] lines

theorem joined_append {lines further : List (List Char)} (h : lines ≠ []) (hf : further ≠ []) :
    joined (lines ++ further) = joined lines ++ '\n' :: joined further := by
  obtain ⟨line, lines, rfl⟩ := List.exists_cons_of_ne_nil h
  obtain ⟨next, further, rfl⟩ := List.exists_cons_of_ne_nil hf
  simp only [joined, List.cons_append, separated_cons, List.flatMap_append, List.flatMap_cons,
    List.append_assoc, List.nil_append]

/-- No lines that follow make the given ones a document. -/
def Hopeless (lines : List (List Char)) : Prop :=
  ∀ further d, Document.parse (joined (lines ++ further)) ≠ .ok d

theorem hopeless_of_definite {lines : List (List Char)} {e : ReadError} (hne : lines ≠ [])
    (he : Document.parse (joined lines) = .error e) (hdefinite : e.isIncomplete = false) :
    Hopeless lines := by
  intro further d hd
  by_cases hf : further = []
  · rw [hf, List.append_nil, he] at hd
    cases hd
  · obtain ⟨e', he', -⟩ := Document.exists_parse_append_eq_error he hdefinite (joined further)
    rw [joined_append hne hf, he'] at hd
    cases hd

def IsBlank (line : List Char) : Prop :=
  Text.trim line = []

/-- The session holds exactly the given lines of a document that is not complete. -/
structure Holds (s : Session) (lines : List (List Char)) : Prop where
  pending : s.pending = joined lines
  notBlank : ∀ line ∈ lines, ¬IsBlank line

theorem Holds.pending_isEmpty {s : Session} {lines : List (List Char)} (h : s.Holds lines) :
    s.pending.isEmpty = lines.isEmpty := by
  rw [h.pending]
  cases lines with
  | nil => rfl
  | cons line lines =>
    have hline : line ≠ [] := by
      rintro rfl
      exact h.notBlank [] List.mem_cons_self rfl
    simp [joined, separated_cons, hline]

/-- The text that a session reads when it takes in a line. -/
theorem Holds.text_eq {s : Session} {lines : List (List Char)} (h : s.Holds lines)
    (line : List Char) :
    (if s.pending.isEmpty then line else s.pending ++ '\n' :: line) = joined (lines ++ [line]) := by
  rw [h.pending_isEmpty, h.pending]
  cases lines with
  | nil => simp [joined, separated_cons]
  | cons first lines =>
    rw [joined_append (List.cons_ne_nil _ _) (List.cons_ne_nil _ _)]
    simp [joined, separated_cons]

variable {settings : Settings} {style : Style} {s : Session} {held : List (List Char)}
  {line : List Char} {message : Option String}

theorem not_report_mem_evaluationEvents (text : List Char) :
    .report message ∉ evaluationEvents text := by
  unfold evaluationEvents
  cases Document.parse text <;> simp

theorem not_report_mem_promptEvents : .report message ∉ promptEvents settings s := by
  unfold promptEvents
  split <;> simp

theorem Holds.step_eq (h : s.Holds held) (style : Style) (line : List Char) :
    s.step style line =
      let blank := (Text.trim line).isEmpty
      if held.isEmpty && blank then (s, [])
      else
        let text := joined (held ++ [line])
        let events := evaluationEvents text
        match Document.parse text with
        | .ok d =>
          ({ documents := s.documents + 1, failures := s.failures },
            events ++ [.rendering (d.chars style)])
        | .error e =>
          if e.isIncomplete && !blank then ({ s with pending := text }, events)
          else
            ({ documents := s.documents + 1, failures := s.failures + 1 },
              events ++ [.report (e.report? (some text))]) := by
  rw [← h.text_eq line, ← h.pending_isEmpty]
  rfl

/-- What a session that holds some lines does with one more: the session afterwards, and the events. -/
inductive Takes (style : Style) (s : Session) (held : List (List Char)) (line : List Char) :
    Session × List Event → Prop
  | skipped : held = [] → IsBlank line → Takes style s held line (s, [])
  | completed {d : Document} : Document.parse (joined (held ++ [line])) = .ok d →
      Takes style s held line
        ({ documents := s.documents + 1, failures := s.failures },
          evaluationEvents (joined (held ++ [line])) ++ [.rendering (d.chars style)])
  | awaited {e : ReadError} : Document.parse (joined (held ++ [line])) = .error e →
      e.isIncomplete = true → ¬IsBlank line →
      Takes style s held line
        ({ s with pending := joined (held ++ [line]) }, evaluationEvents (joined (held ++ [line])))
  | refused {e : ReadError} : Document.parse (joined (held ++ [line])) = .error e →
      IsBlank line ∨ e.isIncomplete = false →
      Takes style s held line
        ({ documents := s.documents + 1, failures := s.failures + 1 },
          evaluationEvents (joined (held ++ [line])) ++
            [.report (e.report? (some (joined (held ++ [line]))))])

theorem Holds.takes (h : s.Holds held) (style : Style) (line : List Char) :
    Takes style s held line (s.step style line) := by
  rw [h.step_eq]
  dsimp only
  by_cases hskip : (held.isEmpty && (Text.trim line).isEmpty) = true
  · rw [if_pos hskip]
    simp only [Bool.and_eq_true, List.isEmpty_iff] at hskip
    exact .skipped hskip.1 hskip.2
  rw [if_neg hskip]
  cases hparse : Document.parse (joined (held ++ [line])) with
  | ok d => exact .completed hparse
  | error e =>
    dsimp only
    by_cases hwait : (e.isIncomplete && !(Text.trim line).isEmpty) = true
    · rw [if_pos hwait]
      simp only [Bool.and_eq_true, Bool.not_eq_true', List.isEmpty_eq_false_iff] at hwait
      exact .awaited hparse hwait.1 hwait.2
    · rw [if_neg hwait]
      refine .refused hparse ?_
      by_cases hblank : IsBlank line
      · exact .inl hblank
      · have hne : (Text.trim line).isEmpty = false := by simpa [IsBlank] using hblank
        exact .inr (by simpa [hne] using hwait)

theorem holds_nil {documents failures : Nat} :
    ({ documents, failures } : Session).Holds [] :=
  ⟨rfl, by simp⟩

/-- After a line the session holds nothing, or that line too. -/
theorem Holds.step (h : s.Holds held) :
    (s.step style line).1.Holds [] ∨ (s.step style line).1.Holds (held ++ [line]) := by
  have htakes := h.takes style line
  generalize s.step style line = next at htakes ⊢
  cases htakes with
  | skipped hheld _ => exact .inl (hheld ▸ h)
  | completed _ => exact .inl holds_nil
  | awaited _ _ hblank =>
    exact .inr ⟨rfl, List.forall_mem_append.mpr ⟨h.notBlank, List.forall_mem_singleton.mpr hblank⟩⟩
  | refused _ _ => exact .inl holds_nil

theorem Holds.report_of_step (h : s.Holds held)
    (hreport : .report message ∈ (s.step style line).2) :
    ∃ e, Document.parse (joined (held ++ [line])) = .error e ∧
      message = e.report? (some (joined (held ++ [line]))) ∧
      (IsBlank line ∨ e.isIncomplete = false) := by
  have htakes := h.takes style line
  generalize s.step style line = next at htakes hreport
  cases htakes with
  | skipped _ _ => cases hreport
  | completed _ => simp [not_report_mem_evaluationEvents] at hreport
  | awaited _ _ _ => exact absurd hreport (not_report_mem_evaluationEvents _)
  | @refused e he hfinal =>
    rcases List.mem_append.mp hreport with hreport | hreport
    · exact absurd hreport (not_report_mem_evaluationEvents _)
    · exact ⟨e, he, Event.report.inj (List.mem_singleton.mp hreport), hfinal⟩

/-- Lines in a row that a session takes in as one text and reports, the last of them maybe blank. -/
structure Reports (lines : List (Except Text.Utf8.Fault (List Char)))
    (held : List (List Char)) (line : List Char) (message : Option String) : Prop where
  taken : List.IsInfix ((held ++ [line]).map .ok) lines
  notBlank : ∀ l ∈ held, ¬IsBlank l
  report : ∃ e, Document.parse (joined (held ++ [line])) = .error e ∧
    message = e.report? (some (joined (held ++ [line])))
  hopeless : ¬IsBlank line → Hopeless (held ++ [line])

theorem Holds.reports_of_feed {lines : List (Except Text.Utf8.Fault (List Char))}
    (h : s.Holds held) (hreport : .report message ∈ (s.feed settings lines).1) :
    ∃ before line, Reports (held.map .ok ++ lines) before line message := by
  induction lines generalizing s held with
  | nil => exact absurd hreport not_report_mem_promptEvents
  | cons line lines ih =>
    cases line with
    | error fault => exact absurd hreport not_report_mem_promptEvents
    | ok line =>
      rw [feed] at hreport
      simp only [List.mem_append, not_report_mem_promptEvents, false_or] at hreport
      have hjoin : held.map .ok ++ .ok line :: lines =
          (held ++ [line]).map .ok ++ lines := by simp
      rcases hreport with hreport | hreport
      · obtain ⟨e, he, hmessage, hfinal⟩ := h.report_of_step hreport
        refine ⟨held, line, ⟨?_, h.notBlank, ⟨e, he, hmessage⟩, fun hblank => ?_⟩⟩
        · rw [hjoin]
          exact (List.prefix_append _ _).isInfix
        · exact hopeless_of_definite (by simp) he (hfinal.resolve_left hblank)
      · rw [hjoin]
        rcases h.step with hnext | hnext
        · obtain ⟨before, last, hh⟩ := ih hnext hreport
          exact ⟨before, last, { hh with
            taken := hh.taken.trans (List.suffix_append _ _).isInfix }⟩
        · exact ih hnext hreport

/-- An error that is no missing end is final: whatever lines follow, the text is refused with the
same error, which at most ends elsewhere. So in a session no lines are given up that others could
still have made a document, unless a blank line asks for that. -/
theorem definite_error_final :
    (∀ source more options e, Document.parse source options = .error e → e.isIncomplete = false →
      ∃ e', Document.parse (source ++ '\n' :: more) options = .error e' ∧ e.Agrees e') ∧
    ∀ settings lines message, .report message ∈ (feed settings {} lines).1 →
      ∃ held line, Reports lines held line message := by
  constructor
  · intro source more options e he hdefinite
    exact Document.exists_parse_append_eq_error he hdefinite more
  · intro settings lines message hreport
    have hempty : Holds {} [] := holds_nil
    exact hempty.reports_of_feed hreport

theorem definite_error_final_missing_colon :
    ∃ e, Document.parse "query Q\n($a Int)".toList = .error e ∧ e.isIncomplete = false ∧
      (∃ e', Document.parse "query Q\n($a Int)\n\x7ba\x7d".toList = .error e' ∧ e.Agrees e') ∧
      ∃ held line, Reports [.ok "query Q".toList, .ok "($a Int)".toList] held line
        (e.report? (some "query Q\n($a Int)".toList)) := by
  have hrefused : ∃ e, Document.parse "query Q\n($a Int)".toList = .error e ∧
      e.isIncomplete = false := ⟨_, rfl, rfl⟩
  obtain ⟨e, he, hdefinite⟩ := hrefused
  have hwaits : (step .pretty {} "query Q".toList).1 = { pending := "query Q".toList } := rfl
  have hholds : Holds { pending := "query Q".toList } ["query Q".toList] := by
    refine ⟨rfl, ?_⟩
    simp only [List.forall_mem_singleton, IsBlank]
    decide
  have hjoined : joined (["query Q".toList] ++ ["($a Int)".toList]) =
      "query Q\n($a Int)".toList := rfl
  have hstops : .report (e.report? (some "query Q\n($a Int)".toList)) ∈
      (step .pretty { pending := "query Q".toList } "($a Int)".toList).2 := by
    rw [hholds.step_eq, hjoined]
    dsimp only
    rw [if_neg (by simp), he]
    simp [hdefinite]
  have hreport : .report (e.report? (some "query Q\n($a Int)".toList)) ∈
      (feed {} {} [.ok "query Q".toList, .ok "($a Int)".toList]).1 := by
    rw [feed]
    refine List.mem_append_right _ ?_
    dsimp only
    rw [hwaits, feed]
    exact List.mem_append_left _ (List.mem_append_right _ hstops)
  exact ⟨e, he, hdefinite, definite_error_final.1 _ "\x7ba\x7d".toList {} e he hdefinite,
    definite_error_final.2 {} _ _ hreport⟩

end Session

end QueryDoc
