import QueryDoc.Proofs.Atom.Reading
import QueryDoc.Proofs.Continuation.Token
import QueryDoc.Proofs.Grammar.Separated
import QueryDoc.Proofs.TypeRef.Reading

/-! Types and values of a text that goes on on its next line. A value in brackets never comes to the
end of the text, because its closing bracket is read, and a loop has turns enough on both texts. -/

namespace QueryDoc

open ReadM Scanner

variable {more : List Char} {s : Scanner}

theorem ReadM.nestedTooDeep_inStep {α : Type} (limit : Nat) :
    InStep more (failWith fun s => .nestedTooDeep limit s.nextSpan : ReadM α)
      (failWith fun s => .nestedTooDeep limit s.nextSpan) s := by
  refine .failWith fun _ => ⟨rfl, rfl, rfl, ?_⟩
  simp only [ReadError.nestedTooDeep, nextSpan_start]
  rfl

section Loop

variable {α : Type} {closing : Char} {delimiter : String} {opening : Span} {item : ReadM α}

theorem readUntil_failsAtEnd (turns : Nat) :
    FailsAtEnd (readUntil closing delimiter opening item turns) := by
  cases turns with
  | zero => exact fun s _ => ⟨_, s, rfl, rfl⟩
  | succ turns => exact (Token.peekInside_failsAtEnd delimiter opening).bind

theorem readUntil_keepsUp (hitem : ∀ s, KeepsUp more item item s) {turns turns' : Nat}
    (h : turns ≤ turns') :
    KeepsUp more (readUntil closing delimiter opening item turns)
      (readUntil closing delimiter opening item turns') s := by
  induction turns generalizing turns' s with
  | zero =>
    have he : readUntil closing delimiter opening item 0 s =
        .error (s.unclosed delimiter opening) s := rfl
    exact (InStep.of_incomplete he rfl).keepsUp
  | succ turns ih =>
    obtain ⟨turns', rfl⟩ := Nat.exists_eq_add_of_le' (Nat.lt_of_lt_of_le (Nat.succ_pos _) h)
    refine (Token.peekInside_inStep delimiter opening).bind_keepsUp fun c s₁ _ => ?_
    split
    · exact (InStep.pure []).keepsUp
    · refine (hitem s₁).bind (fun a s₂ _ => ?_) fun a => (readUntil_failsAtEnd turns).bind.staysAtEnd
      exact (ih (by omega)).bind (fun rest s₃ _ => (InStep.pure _).keepsUp) fun rest => .pure _

end Loop

namespace TypeRef

theorem readBase_keepsUp (hmore : EndsRun isNameContinue more) {inner : ReadM TypeRef}
    (hinner : ∀ s, KeepsUp more inner inner s) : KeepsUp more (readBase inner) (readBase inner) s := by
  refine (Token.peek_inStep "type").bind_keepsUp fun c s₁ _ => ?_
  split
  · refine (Token.literal_inStep (by decide)).bind_keepsUp fun opening s₂ _ => ?_
    refine (hinner s₂).bind (fun t s₃ _ => ?_)
      fun t => (Token.peekInside_failsAtEnd "[" opening).bind.staysAtEnd
    refine InStep.keepsUp ((Token.peekInside_inStep "[" opening).bind fun _ s₄ _ => ?_)
    exact (Token.literal_inStep (by decide)).bind fun _ s₅ _ => .pure _
  · exact InStep.keepsUp
      ((Token.name_inStep hmore).withHelp.bind fun name s₂ _ => .pure _)

theorem readMark_keepsUp (base : TypeRef) : KeepsUp more (readMark base) (readMark base) s := by
  refine Token.peek?_bind_keepsUp (fun c? s₁ => ?_) (StaysAtEnd.pure base)
  split
  · exact InStep.keepsUp ((Token.literal_inStep (by decide)).bind fun _ s₂ _ => .pure _)
  · exact (InStep.pure base).keepsUp

theorem readMark_staysAtEnd (base : TypeRef) : StaysAtEnd (readMark base) :=
  Token.peek?_bind_staysAtEnd (StaysAtEnd.pure base)

theorem readWithin_keepsUp (hmore : EndsRun isNameContinue more) (limit levels : Nat) :
    KeepsUp more (readWithin limit levels) (readWithin limit levels) s := by
  induction levels generalizing s with
  | zero => exact (nestedTooDeep_inStep limit).keepsUp
  | succ levels ih =>
    rw [readWithin_succ]
    exact (readBase_keepsUp hmore fun _ => ih).bind (fun base s₁ _ => readMark_keepsUp base)
      readMark_staysAtEnd

end TypeRef

namespace Atom

theorem readNumber_inStep (hmore : EndsRun isNumberContinue more) :
    InStep more readNumber readNumber s := by
  have heq := readNumber_eq s
  have heq' := readNumber_eq (s.followedBy more)
  rw [run_followedBy hmore, skipRun_followedBy (run_followedBy hmore)] at heq'
  cases hn : ofNumber? (s.run isNumberContinue) with
  | some a =>
    rw [hn] at heq heq'
    exact (InStep.pure a).of_eq heq heq'
  | none =>
    rw [hn] at heq heq'
    exact (InStep.failWith fun _ => ⟨rfl, rfl, rfl, rfl⟩).of_eq heq heq'

theorem readKeyword_inStep (hmore : EndsRun isNameContinue more) {word : String}
    (hword : word.toList ≠ []) (value : Atom) :
    InStep more (readKeyword word value) (readKeyword word value) s :=
  (Token.keyword_inStep hmore hword).withHelp.bind fun _ _ _ => .pure value

theorem readList_keepsUp {item : ReadM Atom} (hitem : ∀ s, KeepsUp more item item s) :
    KeepsUp more (readList item) (readList item) s := by
  refine (Token.literal_inStep (by decide)).bind_keepsUp fun opening s₁ _ => .get ?_
  rw [readItems_eq, readItems_eq]
  refine (readUntil_keepsUp hitem ?_).bind (fun items s₂ _ => InStep.keepsUp ?_)
    fun items => (Token.literal_failsAtEnd (by decide)).bind.staysAtEnd
  · simp only [followedBy, List.length_append]
    omega
  · exact (Token.literal_inStep (by decide)).bind fun _ s₃ _ => .pure _

theorem readFields_failsAtEnd (value : ReadM Atom) (opening : Span) (turns : Nat)
    (seen : List (String × Span)) : FailsAtEnd (readFields value opening turns seen) := by
  cases turns with
  | zero => exact fun s _ => ⟨_, s, rfl, rfl⟩
  | succ turns => exact (Token.peekInside_failsAtEnd "\x7b" opening).bind

/-- The places of the keys read before are the same in both texts. -/
theorem readFields_keepsUp (hmore : EndsRun isNameContinue more) {value : ReadM Atom}
    (hvalue : ∀ s, KeepsUp more value value s) {opening : Span} {turns turns' : Nat}
    (h : turns ≤ turns') (seen : List (String × Span)) :
    KeepsUp more (readFields value opening turns seen) (readFields value opening turns' seen) s := by
  induction turns generalizing turns' seen s with
  | zero =>
    have he : readFields value opening 0 seen s = .error (s.unclosed "\x7b" opening) s := rfl
    exact (InStep.of_incomplete he rfl).keepsUp
  | succ turns ih =>
    obtain ⟨turns', rfl⟩ := Nat.exists_eq_add_of_le' (Nat.lt_of_lt_of_le (Nat.succ_pos _) h)
    refine (Token.peekInside_inStep "\x7b" opening).bind_keepsUp fun c s₁ _ => ?_
    split
    · exact (InStep.pure []).keepsUp
    refine .get ((Token.name_inStep hmore).bind_keepsUp fun key s₂ _ => .get ?_)
    have hspan : (s₂.followedBy more).spanFrom (s₁.followedBy more).position =
        s₂.spanFrom s₁.position := rfl
    simp only [hspan]
    cases seen.lookup key with
    | some first => exact InStep.keepsUp (.failWith fun _ => ⟨rfl, rfl, rfl, rfl⟩)
    | none =>
      refine (Token.literal_inStep (by decide)).bind_keepsUp fun _ s₃ _ => ?_
      refine (hvalue s₃).bind (fun a s₄ _ => ?_)
        fun a => (readFields_failsAtEnd value opening turns _).bind.staysAtEnd
      exact (ih (by omega) _).bind (fun rest s₅ _ => (InStep.pure _).keepsUp) fun rest => .pure _

theorem readObject_keepsUp (hmore : EndsRun isNameContinue more) {value : ReadM Atom}
    (hvalue : ∀ s, KeepsUp more value value s) :
    KeepsUp more (readObject value) (readObject value) s := by
  refine (Token.literal_inStep (by decide)).bind_keepsUp fun opening s₁ _ => .get ?_
  refine (readFields_keepsUp hmore hvalue ?_ []).bind (fun fields s₂ _ => InStep.keepsUp ?_)
    fun fields => (Token.literal_failsAtEnd (by decide)).bind.staysAtEnd
  · simp only [followedBy, List.length_append]
    omega
  · exact (Token.literal_inStep (by decide)).bind fun _ s₃ _ => .pure _

theorem readFrom_keepsUp (hmore : EndsRun isTokenContinue more) {inner : ReadM Atom}
    (hinner : ∀ s, KeepsUp more inner inner s) (c : Char) (hs : significant s.rest ≠ []) :
    KeepsUp more (readFrom inner c) (readFrom inner c) s := by
  have hname := hmore.isNameContinue
  refine readFrom_cases (motive := fun read => KeepsUp more read read s)
    ?number ?string ?boolTrue ?boolFalse ?null ?list ?object ?enum
  case number => exact fun _ => (readNumber_inStep hmore.isNumberContinue).keepsUp
  case string => exact (Token.string_inStep.bind fun text s₁ _ => .pure _).keepsUp
  case boolTrue | boolFalse | null => exact (readKeyword_inStep hname (by decide) _).keepsUp
  case list => exact readList_keepsUp hinner
  case object => exact readObject_keepsUp hname hinner
  case enum =>
    intro _ _ _
    refine ((Token.name?_inStep hname hs).bind fun name? s₁ _ => ?_).keepsUp
    cases name? with
    | some name => exact .pure _
    | none => exact unexpected_inStep _

theorem readWithin_keepsUp (hmore : EndsRun isTokenContinue more) (limit levels : Nat) :
    KeepsUp more (readWithin limit levels) (readWithin limit levels) s := by
  induction levels generalizing s with
  | zero => exact (nestedTooDeep_inStep limit).keepsUp
  | succ levels ih =>
    rw [readWithin_succ]
    refine (Token.peek_inStep "value").bind_keepsUp fun c s₁ hpeek => ?_
    obtain ⟨rfl, cs, hs⟩ := Token.peek_ok hpeek
    refine readFrom_keepsUp hmore (fun _ => ih) c ?_
    rw [rest_skipIgnored, significant_significant, hs]
    exact List.cons_ne_nil _ _

end Atom

end QueryDoc
