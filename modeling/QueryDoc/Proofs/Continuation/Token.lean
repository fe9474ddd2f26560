import QueryDoc.Proofs.Continuation.Basic
import QueryDoc.Proofs.Reading.Token

/-! The tokens of a text that goes on. A name or a number at the very end of the text stays what it
is if the first character after it is none of its own. -/

namespace QueryDoc

namespace Scanner

variable {more : List Char} {s : Scanner}

theorem advance_followedBy (h : s.rest ≠ []) :
    (s.followedBy more).advance = s.advance.followedBy more := by
  obtain ⟨rest, position, afterReturn, file⟩ := s
  cases rest with
  | nil => exact absurd rfl h
  | cons c cs => rfl

theorem advanceBy_followedBy {n : Nat} (h : n ≤ s.rest.length) :
    (s.followedBy more).advanceBy n = (s.advanceBy n).followedBy more := by
  induction n generalizing s with
  | zero => rfl
  | succ n ih =>
    have hne : s.rest ≠ [] := by
      intro hnil
      simp [hnil] at h
    rw [advanceBy, advanceBy, advance_followedBy hne, ih]
    rw [rest_advance, List.length_tail]
    omega

theorem run_followedBy {p : Char → Bool} (h : EndsRun p more) :
    (s.followedBy more).run p = s.run p := by
  have hnil : ∀ c ∈ ([] : List Char), p c = true := by simp
  have hmore : more.takeWhile p = [] := by
    simpa using takeWhile_append_of_endsRun hnil h
  change (s.rest ++ more).takeWhile p = s.rest.takeWhile p
  rw [List.takeWhile_append]
  split
  · next hall =>
    rw [hmore, List.append_nil]
    exact ((List.takeWhile_prefix p).eq_of_length hall).symm
  · rfl

/-- A run that ends inside the text does not depend on what follows the text. -/
theorem run_followedBy_of_mem {p : Char → Bool} {c : Char} (hc : c ∈ s.rest) (hp : p c = false) :
    (s.followedBy more).run p = s.run p := by
  change (s.rest ++ more).takeWhile p = s.rest.takeWhile p
  rw [List.takeWhile_append]
  split
  · next hall =>
    rw [← (List.takeWhile_prefix p).eq_of_length hall] at hc
    simp [List.mem_takeWhile_imp hc] at hp
  · rfl

theorem skipRun_followedBy {p : Char → Bool} (h : (s.followedBy more).run p = s.run p) :
    (s.followedBy more).skipRun p = (s.skipRun p).followedBy more := by
  rw [skipRun, h, advanceBy_followedBy, skipRun]
  exact (List.takeWhile_prefix p).length_le

theorem ignoredLength_append {cs : List Char} (inComment : Bool)
    (h : ignoredLength inComment cs < cs.length) (more : List Char) :
    ignoredLength inComment (cs ++ more) = ignoredLength inComment cs := by
  induction cs generalizing inComment with
  | nil => simp at h
  | cons c cs ih =>
    simp only [List.cons_append, ignoredLength] at h ⊢
    split
    · next hcomment =>
      rw [if_pos hcomment, List.length_cons] at h
      rw [ih _ (by omega)]
    · next hcomment =>
      rw [if_neg hcomment] at h
      split
      · next hspace =>
        rw [if_pos hspace, List.length_cons] at h
        rw [ih _ (by omega)]
      · next hspace =>
        rw [if_neg hspace] at h
        split
        · next hsign =>
          rw [if_pos hsign, List.length_cons] at h
          rw [ih _ (by omega)]
        · rfl

theorem skipIgnored_followedBy (h : significant s.rest ≠ []) :
    (s.followedBy more).skipIgnored = s.skipIgnored.followedBy more := by
  have hlt : ignoredLength false s.rest < s.rest.length := by
    simpa [significant] using h
  rw [skipIgnored, followedBy, ignoredLength_append false hlt]
  exact advanceBy_followedBy (Nat.le_of_lt hlt)

theorem nextSpan_start (s : Scanner) : s.nextSpan.start = s.position := by
  unfold nextSpan
  split <;> rfl

end Scanner

open Scanner

theorem significant_append {cs ds more : List Char} {c : Char} (h : significant cs = c :: ds) :
    significant (cs ++ more) = c :: (ds ++ more) := by
  have hlt : ignoredLength false cs < cs.length := by
    have hne : significant cs ≠ [] := by simp [h]
    simpa [significant] using hne
  have hh : significant (cs ++ more) = significant cs ++ more := by
    rw [significant, ignoredLength_append false hlt, List.drop_append_of_le_length (Nat.le_of_lt hlt),
      significant]
  rw [hh, h, List.cons_append]

theorem leadingName?_append_of_endsRun {more : List Char} (h : EndsRun isNameContinue more)
    (cs : List Char) : leadingName? (cs ++ more) = leadingName? cs := by
  cases cs with
  | nil =>
    cases more with
    | nil => rfl
    | cons c more =>
      have hc : isNameStart c = false := by
        by_contra hstart
        have hh := isNameContinue_of_isNameStart (by simpa using hstart)
        simp [endsRun_cons.mp h] at hh
      simp [leadingName?, hc]
  | cons c cs =>
    have hrun := run_followedBy (s := { rest := c :: cs }) h
    change (c :: cs ++ more).takeWhile isNameContinue = (c :: cs).takeWhile isNameContinue at hrun
    rw [List.cons_append] at hrun ⊢
    rw [leadingName?, hrun, leadingName?]

namespace ReadM

variable {α : Type} {more : List Char} {s : Scanner}

theorem isIncomplete_unexpected {expected : List String} (h : s.rest = []) :
    (s.unexpected expected).isIncomplete = true := by
  simp [Scanner.unexpected, Scanner.peek?, h]
  rfl

theorem unexpected_agrees {expected : List String}
    (hdefinite : (s.unexpected expected).isIncomplete = false) :
    (s.unexpected expected).Agrees ((s.followedBy more).unexpected expected) := by
  cases hs : s.rest with
  | nil =>
    rw [isIncomplete_unexpected hs] at hdefinite
    cases hdefinite
  | cons c cs =>
    have hpeek : s.peek? = some c := by rw [Scanner.peek?, hs]; rfl
    have hpeek' : (s.followedBy more).peek? = some c := by
      rw [Scanner.peek?, followedBy, hs]
      rfl
    rw [Scanner.unexpected, hpeek, Scanner.unexpected, hpeek']
    exact ⟨rfl, rfl, rfl, by simp only [nextSpan_start]; rfl⟩

theorem unexpected_inStep (expected : List String) :
    InStep more (failWith (·.unexpected expected) : ReadM α) (failWith (·.unexpected expected)) s :=
  .failWith unexpected_agrees

theorem unsupportedHere_inStep (feature : Feature) :
    InStep more (unsupportedHere feature : ReadM α) (unsupportedHere feature) s := by
  refine .failWith fun _ => ⟨rfl, rfl, rfl, ?_⟩
  simp only [ReadError.unsupported, nextSpan_start]
  rfl

end ReadM

namespace Token

open ReadM

variable {more : List Char} {s : Scanner}

theorem peek?_inStep (h : significant s.rest ≠ []) : InStep more peek? peek? s := by
  obtain ⟨c, cs, hs⟩ := List.exists_cons_of_ne_nil h
  constructor
  · rintro a s₁ ha
    rw [peek?_eq] at ha ⊢
    cases ha
    rw [skipIgnored_followedBy h]
    change EStateM.Result.ok (significant (s.rest ++ more)).head? _ = _
    rw [significant_append hs, hs]
    rfl
  · rintro e s₁ he
    rw [peek?_eq] at he
    cases he

/-- At the end there is no next character. -/
theorem peek?_bind_keepsUp {α : Type} {f f' : Option Char → ReadM α}
    (hf : ∀ c? s₁, KeepsUp more (f c?) (f' c?) s₁) (hend : StaysAtEnd (f none)) :
    KeepsUp more (peek? >>= f) (peek? >>= f') s := by
  by_cases h : significant s.rest = []
  · have heq : (peek? >>= f) s = f none s.skipIgnored := by
      rw [bind_of_ok (peek?_eq s), h]
      rfl
    have hs : significant s.skipIgnored.rest = [] := by simpa using h
    constructor
    · intro a s₁ ha
      exact .inr ((hend hs).1 (heq ▸ ha))
    · intro e s₁ he hdefinite
      rw [(hend hs).2 (heq ▸ he)] at hdefinite
      cases hdefinite
  · exact (peek?_inStep h).bind_keepsUp fun c? s₁ _ => hf c? s₁

theorem peek?_bind_failsAtEnd {α : Type} {f : Option Char → ReadM α} (h : FailsAtEnd (f none)) :
    FailsAtEnd (peek? >>= f) := by
  intro s hs
  rw [bind_of_ok (peek?_eq s), hs]
  exact h (by simpa using hs)

theorem peek?_bind_inStep {α : Type} {f f' : Option Char → ReadM α}
    (hf : ∀ c? s₁, InStep more (f c?) (f' c?) s₁) (hend : FailsAtEnd (f none)) :
    InStep more (peek? >>= f) (peek? >>= f') s := by
  by_cases h : significant s.rest = []
  · exact (peek?_bind_failsAtEnd hend).inStep h
  · exact (peek?_inStep h).bind fun c? s₁ _ => hf c? s₁

theorem peek?_bind_staysAtEnd {α : Type} {f : Option Char → ReadM α} (h : StaysAtEnd (f none)) :
    StaysAtEnd (peek? >>= f) := by
  intro s hs
  rw [bind_of_ok (peek?_eq s), hs]
  exact h (by simpa using hs)

theorem peek_failsAtEnd (expected : String) : FailsAtEnd (peek expected) := by
  intro s hs
  refine ⟨s.skipIgnored.endOfInput [expected], s.skipIgnored, ?_, rfl⟩
  rw [peek, bind_of_ok (peek?_eq s), hs]
  rfl

theorem peekInside_failsAtEnd (delimiter : String) (opening : Span) :
    FailsAtEnd (peekInside delimiter opening) := by
  intro s hs
  refine ⟨s.skipIgnored.unclosed delimiter opening, s.skipIgnored, ?_, rfl⟩
  rw [peekInside, bind_of_ok (peek?_eq s), hs]
  rfl

theorem peek_inStep (expected : String) : InStep more (peek expected) (peek expected) s := by
  by_cases h : significant s.rest = []
  · exact (peek_failsAtEnd expected).inStep h
  · refine (peek?_inStep h).bind fun c? s₁ hc => ?_
    obtain ⟨c, cs, hs⟩ := List.exists_cons_of_ne_nil h
    rw [peek?_eq, hs] at hc
    cases hc
    exact .pure c

theorem peekInside_inStep (delimiter : String) (opening : Span) :
    InStep more (peekInside delimiter opening) (peekInside delimiter opening) s := by
  by_cases h : significant s.rest = []
  · exact (peekInside_failsAtEnd delimiter opening).inStep h
  · refine (peek?_inStep h).bind fun c? s₁ hc => ?_
    obtain ⟨c, cs, hs⟩ := List.exists_cons_of_ne_nil h
    rw [peek?_eq, hs] at hc
    cases hc
    exact .pure c

theorem passOver_cons_eq_failWith {text : String} {c : Char} {cs : List Char}
    {s : Scanner} (h : s.peek? ≠ some c) :
    passOver text (c :: cs) s = (failWith (·.unexpected [text]) : ReadM Unit) s := by
  rw [passOver_cons, if_neg h]
  rfl

theorem passOver_inStep (text : String) (cs : List Char) :
    InStep more (passOver text cs) (passOver text cs) s := by
  induction cs generalizing s with
  | nil => exact .pure ()
  | cons c cs ih =>
    by_cases hc : s.peek? = some c
    · obtain ⟨ds, hs⟩ := List.head?_eq_some_iff.mp hc
      have hne : s.rest ≠ [] := by simp [hs]
      have hc' : (s.followedBy more).peek? = some c := by
        rw [Scanner.peek?, followedBy, hs]
        rfl
      refine ih.of_eq (t := s.advance) ?_ ?_
      · rw [passOver_cons, if_pos hc]
      · rw [passOver_cons, if_pos hc', advance_followedBy hne]
    · have he : passOver text (c :: cs) s = (failWith (·.unexpected [text]) : ReadM Unit) s :=
        passOver_cons_eq_failWith hc
      by_cases hs : s.rest = []
      · exact .of_incomplete he (isIncomplete_unexpected hs)
      · have hc' : (s.followedBy more).peek? ≠ some c := by
          obtain ⟨d, ds, hd⟩ := List.exists_cons_of_ne_nil hs
          rw [Scanner.peek?, followedBy, hd]
          rwa [Scanner.peek?, hd] at hc
        exact (unexpected_inStep [text]).of_eq he (passOver_cons_eq_failWith hc')

theorem literal_failsAtEnd {text : String} (htext : text.toList ≠ []) : FailsAtEnd (literal text) := by
  intro s hs
  obtain ⟨c, cs, hcs⟩ := List.exists_cons_of_ne_nil htext
  have hrest : s.skipIgnored.rest = [] := by rw [rest_skipIgnored, hs]
  have hc : s.skipIgnored.peek? ≠ some c := by
    rw [Scanner.peek?, hrest]
    simp
  refine ⟨s.skipIgnored.unexpected [text], s.skipIgnored, ?_, isIncomplete_unexpected hrest⟩
  rw [literal_eq, hcs, passOver_cons_eq_failWith hc]
  rfl

theorem literal_inStep {text : String} (htext : text.toList ≠ []) :
    InStep more (literal text) (literal text) s := by
  by_cases h : significant s.rest = []
  · exact (literal_failsAtEnd htext).inStep h
  · have hstep : InStep more (do
        let start ← get
        passOver text text.toList
        return (← get).spanFrom start.position : ReadM Span) (do
        let start ← get
        passOver text text.toList
        return (← get).spanFrom start.position : ReadM Span) s.skipIgnored := by
      refine .get (.bind (passOver_inStep text _) fun _ s₁ _ => .get ?_)
      exact .pure _
    refine hstep.of_eq rfl ?_
    rw [← skipIgnored_followedBy h]
    rfl

theorem name?_of_isNameStart {s : Scanner} {c : Char} {cs : List Char}
    (h : significant s.rest = c :: cs) (hc : isNameStart c = true) :
    name? s = .ok (some (String.ofList (s.skipIgnored.run isNameContinue)))
      (s.skipIgnored.skipRun isNameContinue) := by
  rw [name?, bind_of_ok (peek?_eq s), h]
  simp only [List.head?_cons, hc, if_true]
  rfl

theorem name?_inStep (hmore : EndsRun isNameContinue more) (h : significant s.rest ≠ []) :
    InStep more name? name? s := by
  obtain ⟨c, cs, hs⟩ := List.exists_cons_of_ne_nil h
  have hs' : significant (s.followedBy more).rest = c :: (cs ++ more) := significant_append hs
  by_cases hc : isNameStart c = true
  · refine ⟨fun n? s₁ hn => ?_, fun e s₁ he => ?_⟩
    · rw [name?_of_isNameStart hs hc] at hn
      cases hn
      rw [name?_of_isNameStart hs' hc, skipIgnored_followedBy h, run_followedBy hmore,
        skipRun_followedBy (run_followedBy hmore)]
    · rw [name?_of_isNameStart hs hc] at he
      cases he
  · have hnone : ∀ d ∈ (significant s.rest).head?, isNameStart d = false := by
      simpa [hs] using hc
    have hnone' : ∀ d ∈ (significant (s.followedBy more).rest).head?, isNameStart d = false := by
      simpa [hs'] using hc
    refine (InStep.pure (s := s.skipIgnored) none).of_eq (name?_of_not_isNameStart hnone) ?_
    rw [name?_of_not_isNameStart hnone', skipIgnored_followedBy h]
    rfl

theorem name?_keepsUp (hmore : EndsRun isNameContinue more) : KeepsUp more name? name? s := by
  by_cases h : significant s.rest = []
  · have hn : name? s = .ok none s.skipIgnored := name?_of_not_isNameStart (by simp [h])
    constructor
    · intro n? s₁ hok
      rw [hn] at hok
      cases hok
      exact .inr (by simpa using h)
    · intro e s₁ he
      rw [hn] at he
      cases he
  · exact (name?_inStep hmore h).keepsUp

theorem name_inStep (hmore : EndsRun isNameContinue more) : InStep more name name s := by
  refine (peek_inStep "name").bind fun c s₁ hc => ?_
  obtain ⟨rfl, cs, hs⟩ := peek_ok hc
  have hne : significant s.skipIgnored.rest ≠ [] := by
    rw [rest_skipIgnored, significant_significant, hs]
    exact List.cons_ne_nil _ _
  refine (name?_inStep hmore hne).bind fun n? s₂ _ => ?_
  cases n? with
  | some n => exact .pure n
  | none => exact unexpected_inStep _

theorem keyword_failsAtEnd (word : String) : FailsAtEnd (keyword word) := by
  intro s hs
  have hrest : s.skipIgnored.rest = [] := by rw [rest_skipIgnored, hs]
  refine ⟨s.skipIgnored.unexpected [word], s.skipIgnored, ?_, isIncomplete_unexpected hrest⟩
  rw [keyword_eq, hs]
  rfl

theorem keyword_inStep (hmore : EndsRun isNameContinue more) {word : String}
    (hword : word.toList ≠ []) : InStep more (keyword word) (keyword word) s := by
  by_cases h : significant s.rest = []
  · exact (keyword_failsAtEnd word).inStep h
  have hlead : leadingName? (significant (s.followedBy more).rest) =
      leadingName? (significant s.rest) := by
    obtain ⟨c, cs, hs⟩ := List.exists_cons_of_ne_nil h
    have hs' : significant (s.followedBy more).rest = (c :: cs) ++ more := significant_append hs
    rw [hs', leadingName?_append_of_endsRun hmore, hs]
  have heq := keyword_eq word s
  have heq' := keyword_eq word (s.followedBy more)
  rw [hlead, skipIgnored_followedBy h] at heq'
  cases hfound : leadingName? (significant s.rest) with
  | none =>
    rw [hfound] at heq heq'
    have hstep : InStep more (failWith (·.unexpected [word]) : ReadM Span)
        (failWith (·.unexpected [word])) s.skipIgnored := unexpected_inStep [word]
    refine hstep.of_eq ?_ ?_
    · exact heq
    · exact heq'
  | some found =>
    rw [hfound] at heq heq'
    dsimp only at heq heq'
    split at heq
    · next he =>
      rw [if_pos he] at heq'
      exact (literal_inStep hword).of_eq heq heq'
    · next he =>
      rw [if_neg he, skipRun_followedBy (run_followedBy hmore)] at heq'
      exact (InStep.failWith fun _ => ⟨rfl, rfl, rfl, rfl⟩).of_eq heq heq'

theorem string_inStep : InStep more string string s := by
  cases hlit : literal "\"" s with
  | error e s₁ =>
    have hstep : InStep more (literal "\"") (literal "\"") s := literal_inStep (by decide)
    refine hstep.bind fun span s₂ h => ?_
    rw [hlit] at h
    cases h
  | ok span s₁ =>
    have hlit' : literal "\"" (s.followedBy more) = .ok span (s₁.followedBy more) :=
      (literal_inStep (by decide)).ok hlit
    by_cases hquote : '"' ∈ s₁.rest
    · have hquote' : '"' ∈ (s₁.followedBy more).rest := List.mem_append_left _ hquote
      have hrun : (s₁.followedBy more).run (· != '"') = s₁.run (· != '"') :=
        run_followedBy_of_mem hquote (by decide)
      have hne : (s₁.skipRun (· != '"')).rest ≠ [] := by
        obtain ⟨rest, hrest⟩ := exists_rest_skipRun hquote
        rw [hrest]
        exact List.cons_ne_nil _ _
      refine (InStep.pure (s := (s₁.skipRun (· != '"')).advance)
        (String.ofList (s₁.run (· != '"')))).of_eq ?_ ?_
      · rw [string_of_literal hlit, if_pos hquote]
        rfl
      · rw [string_of_literal hlit', if_pos hquote', hrun, skipRun_followedBy hrun,
          advance_followedBy hne]
        rfl
    · have he : string s = .error (.unterminatedString span) s₁ := by
        rw [string_of_literal hlit, if_neg hquote]
      exact .of_incomplete he rfl

end Token

end QueryDoc
