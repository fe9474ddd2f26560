import QueryDoc.Proofs.Grammar.Extension

/-! Texts that only lack their end. Where an action asks for more, the text up to there can be completed
on the next line to a phrase of the kind that the action reads. The tokens ask for more at the end of
the text alone, except for a string that nothing closes. -/

namespace QueryDoc

open ReadM

theorem Scanner.rest_eq_nil_of_unexpected {s : Scanner} {expected : List String}
    (h : (s.unexpected expected).isIncomplete = true) : s.rest = [] := by
  cases hs : s.rest with
  | nil => rfl
  | cons c cs =>
    rw [unexpected, peek?, hs] at h
    cases h

theorem ReadM.withHelp_error {α : Type} {message : String} {act : ReadM α} {s s' : Scanner}
    {e : ReadError} (h : withHelp message act s = .error e s') :
    ∃ d, act s = .error d s' ∧ d.isIncomplete = e.isIncomplete := by
  unfold withHelp at h
  cases hact : act s with
  | ok a t =>
    rw [hact] at h
    cases h
  | error d t =>
    rw [hact] at h
    cases h
    exact ⟨d, rfl, rfl⟩

namespace Token

variable {s s' : Scanner} {e : ReadError}

theorem peek_error {expected : String} (h : peek expected s = .error e s') :
    significant s.rest = [] := by
  cases hs : significant s.rest with
  | nil => rfl
  | cons c cs =>
    rw [peek_of_significant hs] at h
    cases h

theorem peekInside_error {delimiter : String} {opening : Span}
    (h : peekInside delimiter opening s = .error e s') : significant s.rest = [] := by
  cases hs : significant s.rest with
  | nil => rfl
  | cons c cs =>
    rw [peekInside_of_significant hs] at h
    cases h

theorem literal_error {text : String} {c : Char} (htext : text.toList = [c])
    (h : literal text s = .error e s') (he : e.isIncomplete = true) : significant s.rest = [] := by
  rw [literal_eq, htext, passOver_cons] at h
  by_cases hc : s.skipIgnored.peek? = some c
  · rw [if_pos hc] at h
    cases h
  · rw [if_neg hc] at h
    cases h
    simpa using Scanner.rest_eq_nil_of_unexpected he

theorem name?_ne_error : name? s ≠ .error e s' := by
  intro h
  rw [name?, bind_of_ok (peek?_eq s)] at h
  cases hs : (significant s.rest).head? with
  | none =>
    rw [hs] at h
    cases h
  | some c =>
    rw [hs] at h
    dsimp only at h
    split at h <;> cases h

theorem name_error (h : name s = .error e s') (he : e.isIncomplete = true) :
    significant s.rest = [] := by
  rw [name] at h
  rcases bind_error_iff.mp h with h | ⟨c, s₁, hpeek, h⟩
  · exact peek_error h
  · obtain ⟨rfl, -⟩ := peek_ok hpeek
    rcases bind_error_iff.mp h with h | ⟨n?, s₂, hname, h⟩
    · exact absurd h name?_ne_error
    · rcases name?_ok hname with ⟨n, rfl, -⟩ | ⟨rfl, rfl, -⟩
      · cases h
      · cases h
        simpa using Scanner.rest_eq_nil_of_unexpected he

theorem keyword_error {word : String} (h : keyword word s = .error e s')
    (he : e.isIncomplete = true) : significant s.rest = [] := by
  cases hlead : leadingName? (significant s.rest) with
  | none =>
    rw [keyword_eq, hlead] at h
    cases h
    simpa using Scanner.rest_eq_nil_of_unexpected he
  | some found =>
    by_cases hfound : found = word.toList
    · obtain ⟨rest, -, hspells⟩ := spellsName_of_leadingName? hlead
      rw [hfound, String.ofList_toList] at hspells
      obtain ⟨span, t, hread, -⟩ := keyword_of_spells hspells rfl
      rw [hread] at h
      cases h
    · rw [keyword_eq, hlead] at h
      dsimp only at h
      rw [if_neg hfound] at h
      cases h
      cases he

theorem string_error (h : string s = .error e s') (he : e.isIncomplete = true) :
    significant s.rest = [] ∨ ∃ rest, significant s.rest = '"' :: rest ∧ '"' ∉ rest := by
  cases hlit : literal "\"" s with
  | error d t =>
    rw [string, bind_of_error hlit] at h
    cases h
    exact .inl (literal_error rfl hlit he)
  | ok span t =>
    have hrest := literal_ok hlit
    by_cases hquote : '"' ∈ t.rest
    · rw [string_of_literal hlit, if_pos hquote] at h
      cases h
    · exact .inr ⟨t.rest, hrest, hquote⟩

end Token

/-- Something on the next line completes the text to a phrase. What stands after the phrase does not
matter, as long as it lets the phrase end. -/
def Completes (cs : List Char) (phrase : List Char → List Char → Prop) : Prop :=
  ∃ more, ∀ after, EndsVariable after → phrase (cs ++ '\n' :: (more ++ after)) after

theorem ignored_next_line {cs : List Char} (h : significant cs = []) (more : List Char) :
    Ignored (cs ++ '\n' :: more) more := by
  have hline : EndsRun (!isLineEnd ·) ('\n' :: more) := endsRun_cons.mpr (by decide)
  have hh := (ignored_nil_iff.mpr h).extend hline
  exact hh.trans (ignored_space (by decide) more)

namespace Completes

variable {cs ds : List Char} {phrase phrase' : List Char → List Char → Prop}

/-- At the end of a text, what completes it is a phrase of its own. -/
theorem of_end (h : significant cs = []) (text : List Char)
    (hphrase : ∀ input after, EndsVariable after → Ignored input (text ++ after) →
      phrase input after) : Completes cs phrase :=
  ⟨text, fun after hafter => hphrase _ after hafter (ignored_next_line h _)⟩

/-- A text is completed like the part of it that is not read yet, and what is read before that part
is read before the longer one too. -/
theorem imp (h : Completes cs phrase) (closing : List Char)
    (hclosing : ∀ after, EndsVariable after → EndsVariable (closing ++ after))
    (himp : ∀ more after, EndsRun (!isLineEnd ·) more → EndsVariable after →
      phrase (cs ++ more) (closing ++ after) → phrase' (ds ++ more) after) :
    Completes ds phrase' := by
  obtain ⟨more, hmore⟩ := h
  refine ⟨more ++ closing, fun after hafter => ?_⟩
  have hline : EndsRun (!isLineEnd ·) ('\n' :: (more ++ closing ++ after)) :=
    endsRun_cons.mpr (by decide)
  have hh := hmore (closing ++ after) (hclosing after hafter)
  rw [← List.append_assoc] at hh
  exact himp _ after hline hafter hh

end Completes

section Loop

variable {α : Type} {closing : Char} {delimiter : String} {opening : Span} {item : ReadM α}
  {spells : List Char → α → List Char → Prop}

theorem readUntil_closing {turns : Nat} {s s' : Scanner} {as : List α}
    (h : readUntil closing delimiter opening item turns s = .ok as s') :
    ∃ cs, significant s'.rest = closing :: cs := by
  induction turns generalizing s as with
  | zero => cases h
  | succ turns ih =>
    rw [readUntil] at h
    obtain ⟨c, s₁, hpeek, h⟩ := bind_ok_iff.mp h
    obtain ⟨rfl, cs, hcs⟩ := Token.peekInside_ok hpeek
    split at h
    · next hc =>
      obtain ⟨rfl, rfl⟩ := pure_ok_iff.mp h
      exact ⟨cs, by rw [Scanner.rest_skipIgnored, significant_significant, hcs, hc]⟩
    · obtain ⟨a, s₂, -, h⟩ := bind_ok_iff.mp h
      obtain ⟨rest, s₃, hrest, h⟩ := bind_ok_iff.mp h
      obtain ⟨rfl, rfl⟩ := pure_ok_iff.mp h
      exact ih hrest

/-- A row of phrases is completed by completing the one that is not read to its end. -/
theorem readUntil_completes (hitem : Sound item spells)
    (hprepend : ∀ ⦃i m a r⦄, Ignored i m → spells m a r → spells i a r)
    (hlength : ∀ ⦃i a r⦄, spells i a r → r.length < (significant i).length)
    (hfirst : ∀ ⦃i a r⦄, spells i a r → (significant i).head? ≠ some '@')
    (hextend : ∀ ⦃i a r more⦄, EndsRun (!isLineEnd ·) more →
      (significant (r ++ more)).head? ≠ some '@' → spells i a r → spells (i ++ more) a (r ++ more))
    (hcomplete : ∀ ⦃s e s'⦄, item s = .error e s' → e.isIncomplete = true →
      Completes s.rest fun i r => ∃ a, spells i a r)
    {turns : Nat} {s s' : Scanner} {e : ReadError} (hturns : (significant s.rest).length < turns)
    (h : readUntil closing delimiter opening item turns s = .error e s')
    (he : e.isIncomplete = true) :
    Completes s.rest fun i r => ∃ as rest, SpellsEach spells i as rest ∧ Ignored rest r := by
  induction turns generalizing s with
  | zero => omega
  | succ turns ih =>
    have hskip := s.ignored_skipIgnored
    rw [readUntil] at h
    rcases bind_error_iff.mp h with h | ⟨c, s₁, hpeek, h⟩
    · exact .of_end (Token.peekInside_error h) [] fun input after _ hinput =>
        ⟨[], input, .nil input, hinput⟩
    obtain ⟨rfl, -⟩ := Token.peekInside_ok hpeek
    split at h
    · cases h
    rcases bind_error_iff.mp h with h | ⟨a, s₂, ha, h⟩
    · refine (hcomplete h he).imp [] (fun _ hafter => hafter) ?_
      rintro more after hmore - ⟨a, ha⟩
      exact ⟨[a], after, .cons (hprepend (hskip.extend hmore) ha) (.nil after), .done after⟩
    rcases bind_error_iff.mp h with h | ⟨as, s₃, -, h⟩
    · obtain ⟨mid, hspells, hmid⟩ := hitem ha
      have hturns' : (significant s₂.rest).length < turns := by
        have h₁ := hlength hspells
        have h₂ := hmid.suffix.length_le
        have h₃ := (ignored_significant s₂.rest).suffix.length_le
        rw [Scanner.rest_skipIgnored, significant_significant] at h₁
        omega
      refine (ih hturns' h).imp [] (fun _ hafter => hafter) ?_
      rintro more after hmore hafter ⟨as, rest, has, hrest⟩
      have hnext : (significant (mid ++ more)).head? ≠ some '@' := by
        rw [significant_eq_of_ignored (hmid.extend hmore)]
        cases has with
        | nil =>
          rw [significant_eq_of_ignored hrest]
          exact hafter.2
        | cons hb _ => exact hfirst hb
      obtain ⟨rest', has', hrest'⟩ := has.prepend hprepend (hmid.extend hmore)
      have ha' := hprepend (hskip.extend hmore) (hextend hmore hnext hspells)
      exact ⟨a :: as, rest', .cons ha' has', hrest'.trans hrest⟩
    · cases h

end Loop

end QueryDoc
