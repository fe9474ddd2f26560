import QueryDoc.Proofs.Diagnostic.Snippet
import QueryDoc.Proofs.Grammar.Truncation
import QueryDoc.Proofs.Session.Assembly

/-! What an interactive session holds when it comes to the next line. It holds nothing, or lines that
only lack their end, and a blank line never is that end. So a blank line always leaves nothing behind, and
the session goes on as a new one does. -/

namespace QueryDoc.Session

open Text

variable {style : Style} {s t : Session} {held lines : List (List Char)} {line : List Char}

/-- The text that a session reads when it takes in a line. -/
def textWith (s : Session) (line : List Char) : List Char :=
  if s.pending.isEmpty then line else s.pending ++ '\n' :: line

/-- The session holds lines that are refused because their end is missing. -/
structure Awaits (s : Session) (held : List (List Char)) (e : ReadError) : Prop
    extends Holds s held where
  refused : Document.parse s.pending = .error e
  incomplete : e.isIncomplete = true

def Event.report? : Event → Option (Option String)
  | report text => some text
  | prompt _ | rendering _ | record _ => none

/-- The errors that are reported. -/
def reports (events : List Event) : List (Option String) :=
  events.filterMap Event.report?

@[simp] theorem reports_append (first second : List Event) :
    reports (first ++ second) = reports first ++ reports second :=
  List.filterMap_append

@[simp] theorem reports_report (text : Option String) : reports [.report text] = [text] := rfl

@[simp] theorem reports_rendering (text : List Char) : reports [.rendering text] = [] := rfl

theorem filterMap_evaluationEvents {α : Type} {f : Event → Option α} (hf : ∀ r, f (.record r) = none)
    (text : List Char) : (evaluationEvents text).filterMap f = [] := by
  unfold evaluationEvents
  cases Document.parse text <;> simp [hf]

@[simp] theorem reports_evaluationEvents (text : List Char) : reports (evaluationEvents text) = [] :=
  filterMap_evaluationEvents (fun _ => rfl) text

/-- A blank line completes no document. -/
theorem parse_joined_of_isBlank {d : Document} (hblank : IsBlank line)
    (h : Document.parse (joined (held ++ [line])) = .ok d) : Document.parse (joined held) = .ok d := by
  have hbrace : '}' ∉ line := fun hmem => absurd (trim_eq_nil_iff.mp hblank _ hmem) (by decide)
  obtain ⟨hspells, hlevels⟩ := Document.parse_ok_iff.mp h
  refine Document.parse_ok_iff.mpr ⟨?_, hlevels⟩
  cases held with
  | nil =>
    have hline : joined ([] ++ [line]) = joined [] ++ line := by simp [joined, separated]
    exact (hline ▸ hspells).truncate hbrace
  | cons first held =>
    rw [joined_append (List.cons_ne_nil _ _) (List.cons_ne_nil _ _)] at hspells
    refine hspells.truncate ?_
    simpa [joined, separated_cons] using hbrace

theorem Holds.textWith_eq (h : s.Holds held) (line : List Char) :
    s.textWith line = joined (held ++ [line]) :=
  h.text_eq line

theorem Awaits.of_takes {e : ReadError} (h : s.Holds held)
    (he : Document.parse (joined (held ++ [line])) = .error e) (hincomplete : e.isIncomplete = true)
    (hblank : ¬IsBlank line) :
    Awaits { s with pending := joined (held ++ [line]) } (held ++ [line]) e where
  pending := rfl
  notBlank := List.forall_mem_append.mpr ⟨h.notBlank, List.forall_mem_singleton.mpr hblank⟩
  refused := he
  incomplete := hincomplete

theorem through_concat (style : Style) (s : Session) (lines : List (List Char)) (line : List Char) :
    s.through style (lines ++ [line]) =
      (((s.through style lines).1.step style line).1,
        (s.through style lines).2 ++ ((s.through style lines).1.step style line).2) := by
  rw [through_append]
  simp only [through, List.append_nil]

/-- After any lines a session holds the last of them, as far as they only lack their end. -/
theorem exists_holds_through (style : Style) (lines : List (List Char)) :
    ∃ held, (({} : Session).through style lines).1.Holds held ∧ held <:+ lines ∧
      (held = [] ∨ ∃ e, (({} : Session).through style lines).1.Awaits held e) := by
  induction lines using List.reverseRecOn with
  | nil => exact ⟨[], holds_nil, List.suffix_rfl, .inl rfl⟩
  | append_singleton lines line ih =>
    obtain ⟨held, hholds, hsuffix, -⟩ := ih
    have htakes := hholds.takes style line
    rw [through_concat]
    generalize step style _ line = next at htakes ⊢
    cases htakes with
    | skipped hheld _ => exact ⟨[], hheld ▸ hholds, List.nil_suffix, .inl rfl⟩
    | completed _ => exact ⟨[], holds_nil, List.nil_suffix, .inl rfl⟩
    | refused _ _ => exact ⟨[], holds_nil, List.nil_suffix, .inl rfl⟩
    | awaited he hincomplete hblank =>
      have hawaits := Awaits.of_takes hholds he hincomplete hblank
      exact ⟨held ++ [line], hawaits.toHolds, (List.suffix_append_self_iff).mpr hsuffix, .inr ⟨_, hawaits⟩⟩

/-- A session that has taken in the given lines is in that state when the next ones come. -/
def Reaches (settings : Settings) (lines : List (List Char)) (s : Session) : Prop :=
  ∃ events, ∀ more, feed settings {} (lines.map .ok ++ more) =
    (events ++ (feed settings s more).1, (feed settings s more).2)

theorem feed_append (settings : Settings) (s : Session) (lines : List (List Char)) :
    ∃ events, ∀ more, feed settings s (lines.map .ok ++ more) =
      (events ++ (feed settings (s.through settings.style lines).1 more).1,
        (feed settings (s.through settings.style lines).1 more).2) := by
  induction lines generalizing s with
  | nil => exact ⟨[], fun _ => rfl⟩
  | cons line lines ih =>
    obtain ⟨events, hevents⟩ := ih (s.step settings.style line).1
    refine ⟨promptEvents settings s ++ (s.step settings.style line).2 ++ events, fun more => ?_⟩
    simp only [List.map_cons, List.cons_append, feed, hevents, through, List.append_assoc]

theorem reaches_through (settings : Settings) (lines : List (List Char)) :
    Reaches settings lines (({} : Session).through settings.style lines).1 :=
  feed_append settings {} lines

theorem Holds.pending_eq_nil (h : s.Holds []) : s.pending = [] :=
  h.pending

theorem Holds.pending_step_of_isBlank (h : s.Holds held) (hblank : IsBlank line) :
    (s.step style line).1.pending = [] := by
  have htakes := h.takes style line
  generalize s.step style line = next at htakes ⊢
  cases htakes with
  | skipped hheld _ => exact (hheld ▸ h).pending_eq_nil
  | completed _ => rfl
  | awaited _ _ hnot => exact absurd hblank hnot
  | refused _ _ => rfl

theorem parse_nil_ne_ok (d : Document) : Document.parse [] ≠ .ok d := by
  intro h
  cases h

/-- What a session holds is no document yet. -/
theorem parse_joined_ne_ok (h : held = [] ∨ ∃ e, s.Awaits held e) (d : Document) :
    Document.parse (joined held) ≠ .ok d := by
  rcases h with rfl | ⟨e, h⟩
  · exact parse_nil_ne_ok d
  · rw [← h.pending, h.refused]
    exact fun hd => by cases hd

theorem not_isBlank_of_parse {d : Document} (h : held = [] ∨ ∃ e, s.Awaits held e)
    (hd : Document.parse (joined (held ++ [line])) = .ok d) : ¬IsBlank line := fun hblank =>
  parse_joined_ne_ok h d (parse_joined_of_isBlank hblank hd)

theorem Awaits.close_events {e : ReadError} (h : s.Awaits held e) (hpending : s.pending ≠ []) :
    s.close.2 = evaluationEvents s.pending ++ [.report (e.report? (some s.pending))] := by
  rw [close, if_neg (by simpa using hpending), h.refused]

theorem Awaits.reports_close {e : ReadError} (h : s.Awaits held e) (hpending : s.pending ≠ []) :
    reports s.close.2 = [e.report? (some s.pending)] := by
  rw [h.close_events hpending]
  simp

/-- The last line of those that are held is one that has been awaited. -/
theorem exists_awaited_line (style : Style) (h : (({} : Session).through style lines).1.pending ≠ []) :
    ∃ front line e, lines = front ++ [line] ∧
      (({} : Session).through style lines).1.pending =
        (({} : Session).through style front).1.textWith line ∧
      Document.parse ((({} : Session).through style front).1.textWith line) = .error e ∧
      e.isIncomplete = true := by
  rcases lines.eq_nil_or_concat' with rfl | ⟨front, line, rfl⟩
  · exact absurd rfl h
  obtain ⟨held, hholds, -, -⟩ := exists_holds_through style front
  have htakes := hholds.takes style line
  refine ⟨front, line, ?_⟩
  rw [through_concat] at h ⊢
  rw [hholds.textWith_eq]
  generalize step style _ line = next at htakes h ⊢
  cases htakes with
  | skipped hheld _ => exact absurd (hheld ▸ hholds).pending_eq_nil h
  | completed _ => exact absurd rfl h
  | refused _ _ => exact absurd rfl h
  | @awaited e he hincomplete _ => exact ⟨e, rfl, rfl, he, hincomplete⟩

theorem Reaches.feed_eq {settings : Settings} (h : Reaches settings lines s) :
    ∃ events, feed settings {} (lines.map .ok) = (events, .ok s) := by
  obtain ⟨events, hevents⟩ := h
  have hh := hevents []
  rw [List.append_nil] at hh
  exact ⟨_, hh⟩

/-- The run of a session whose input ends. -/
theorem Reaches.run_eq {settings : Settings} (h : Reaches settings lines s) {input : List UInt8}
    (hinput : inputLines input = lines.map .ok) :
    run settings input = outcome ((feed settings {} (lines.map .ok)).1 ++ s.close.2 ++
      [.record s.close.1.summary]) none := by
  obtain ⟨events, hfeed⟩ := h.feed_eq
  rw [Session.run_eq, hinput, hfeed]

theorem outcome_stderr_of_not_brokenDown {events : List Event}
    (h : (outcome events none).brokenDown = false) :
    (outcome events none).stderr = String.ofList (events.flatMap Event.errors) := by
  have hany : events.any Event.isBreakdown = false := h
  simp [outcome, hany, happening_eq_self hany]

/-- If the program does not break down, all that is pending at the end of the input is reported. -/
theorem Awaits.stderr_run {settings : Settings} {e : ReadError} (h : s.Awaits held e)
    (hpending : s.pending ≠ []) (hreaches : Reaches settings lines s) {input : List UInt8}
    (hinput : inputLines input = lines.map .ok) (hbroken : (run settings input).brokenDown = false) :
    (run settings input).stderr =
      String.ofList ((feed settings {} (lines.map .ok)).1.flatMap Event.errors) ++
        e.detailed (some s.pending) := by
  rw [hreaches.run_eq hinput, h.close_events hpending] at hbroken ⊢
  obtain ⟨text, htext⟩ : ∃ text, e.report? (some s.pending) = some text := by
    have hreport := List.any_eq_false.mp hbroken (.report (e.report? (some s.pending))) (by simp)
    exact Option.ne_none_iff_exists'.mp fun hnone => hreport (Option.isNone_iff_eq_none.mpr hnone)
  rw [outcome_stderr_of_not_brokenDown hbroken, htext, e.detailed_of_report? htext]
  simp [errors_evaluationEvents, Event.errors]

/-- A session that has taken in the given lines and comes to the next one, or to the end. -/
structure AtPrompt (settings : Settings) (lines : List (List Char)) (s : Session) : Prop where
  reached : Reaches settings lines s
  pending : s.pending = [] ∨ ∃ held e, held ≠ [] ∧ held <:+ lines ∧ s.Awaits held e
  completed : ∀ line d, Document.parse (s.textWith line) = .ok d →
    ∃ held, s.textWith line = joined (held ++ [line]) ∧ ∀ l ∈ held ++ [line], ¬IsBlank l
  resumed : ∀ line, IsBlank line → (s.step settings.style line).1.pending = []
  closed : s.pending ≠ [] → ∃ front line before e, lines = front ++ [line] ∧
    Reaches settings front before ∧ s.pending = before.textWith line ∧
    Document.parse (before.textWith line) = .error e ∧ e.isIncomplete = true ∧
    reports s.close.2 = [e.report? (some s.pending)] ∧
    ∀ input, inputLines input = lines.map .ok → (run settings input).brokenDown = false →
      (run settings input).stderr =
        String.ofList ((feed settings {} (lines.map .ok)).1.flatMap Event.errors) ++
          e.detailed (some s.pending)

theorem atPrompt_through (settings : Settings) (lines : List (List Char)) :
    AtPrompt settings lines (({} : Session).through settings.style lines).1 := by
  obtain ⟨held, hholds, hsuffix, hawaits⟩ := exists_holds_through settings.style lines
  have hreached := reaches_through settings lines
  constructor
  case reached => exact hreached
  case pending =>
    by_cases hheld : held = []
    · exact .inl (hheld ▸ hholds).pending_eq_nil
    · obtain ⟨e, hawaits⟩ := hawaits.resolve_left hheld
      exact .inr ⟨held, e, hheld, hsuffix, hawaits⟩
  case completed =>
    intro line d hd
    rw [hholds.textWith_eq] at hd ⊢
    refine ⟨held, rfl, List.forall_mem_append.mpr ⟨hholds.notBlank, ?_⟩⟩
    exact List.forall_mem_singleton.mpr (not_isBlank_of_parse hawaits hd)
  case resumed => exact fun line => hholds.pending_step_of_isBlank
  case closed =>
    intro hpending
    obtain ⟨front, line, e, hlines, htext, he, hincomplete⟩ := exists_awaited_line _ hpending
    rcases hawaits with rfl | ⟨e', hawaits⟩
    · exact absurd hholds.pending_eq_nil hpending
    have hsame := hawaits.refused
    rw [htext, he] at hsame
    obtain rfl := Except.error.inj hsame
    exact ⟨front, line, _, e, hlines, reaches_through settings front, htext, he, hincomplete,
      hawaits.reports_close hpending, fun input => hawaits.stderr_run hpending hreached⟩

end QueryDoc.Session
