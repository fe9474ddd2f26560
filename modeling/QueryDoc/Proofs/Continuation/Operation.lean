import QueryDoc.Proofs.Continuation.Value
import QueryDoc.Proofs.Operation.Reading

/-! Operations of a text that goes on on its next line. An operation ends with the brace that closes
its selection set. Of the parts before it, a name, a type and a default value can come to the end of
the text, but nothing that follows them objects to that. -/

namespace QueryDoc

open ReadM Scanner

variable {more : List Char} {s : Scanner}

namespace VariableDefinition

theorem readDefault_keepsUp (hmore : EndsRun isTokenContinue more) (limit : Nat) :
    KeepsUp more (readDefault limit) (readDefault limit) s := by
  refine Token.peek?_bind_keepsUp (fun c? s₁ => ?_) (StaysAtEnd.pure none)
  split
  · refine (Token.literal_inStep (by decide)).bind_keepsUp fun _ s₂ _ => ?_
    exact (Atom.readWithin_keepsUp hmore limit limit).bind
      (fun a s₃ _ => (InStep.pure _).keepsUp) fun a => .pure _
  · exact (InStep.pure none).keepsUp

theorem readDefault_staysAtEnd (limit : Nat) : StaysAtEnd (readDefault limit) :=
  Token.peek?_bind_staysAtEnd (StaysAtEnd.pure none)

theorem refuseDirectives_keepsUp (v : VariableDefinition) :
    KeepsUp more (refuseDirectives v) (refuseDirectives v) s := by
  refine Token.peek?_bind_keepsUp (fun c? s₁ => ?_) (StaysAtEnd.pure v)
  split
  · exact (unsupportedHere_inStep .variableDirectives).keepsUp
  · exact (InStep.pure v).keepsUp

theorem refuseDirectives_staysAtEnd (v : VariableDefinition) : StaysAtEnd (refuseDirectives v) :=
  Token.peek?_bind_staysAtEnd (StaysAtEnd.pure v)

theorem read_keepsUp (hmore : EndsRun isTokenContinue more) (limit : Nat) :
    KeepsUp more (read limit) (read limit) s := by
  have hname := hmore.isNameContinue
  rw [read_eq]
  refine (Token.literal_inStep (by decide)).bind_keepsUp fun _ s₁ _ => ?_
  refine (Token.name_inStep hname).bind_keepsUp fun name s₂ _ => ?_
  refine (Token.literal_inStep (by decide)).withHelp.bind_keepsUp fun _ s₃ _ => ?_
  refine (TypeRef.readWithin_keepsUp hname limit limit).bind (fun t s₄ _ => ?_)
    fun t => (readDefault_staysAtEnd limit).bind fun a => refuseDirectives_staysAtEnd _
  exact (readDefault_keepsUp hmore limit).bind (fun a s₅ _ => refuseDirectives_keepsUp _)
    fun a => refuseDirectives_staysAtEnd _

theorem readList_keepsUp (hmore : EndsRun isTokenContinue more) (limit : Nat) :
    KeepsUp more (readList limit) (readList limit) s := by
  refine (Token.literal_inStep (by decide)).bind_keepsUp fun opening s₁ _ => ?_
  refine (Token.peekInside_inStep "(" opening).bind_keepsUp fun c s₂ _ => ?_
  split
  · refine InStep.keepsUp (.failWith fun _ => ⟨rfl, rfl, rfl, ?_⟩)
    simp only [ReadError.emptyVariables, nextSpan_start]
    rfl
  · refine .get ?_
    rw [readEach_eq, readEach_eq]
    refine (readUntil_keepsUp (fun _ => read_keepsUp hmore limit) ?_).bind
      (fun definitions s₃ _ => InStep.keepsUp ?_)
      fun definitions => (Token.literal_failsAtEnd (by decide)).bind.staysAtEnd
    · simp only [followedBy, List.length_append]
      omega
    · exact (Token.literal_inStep (by decide)).bind fun _ s₄ _ => .pure _

end VariableDefinition

namespace SelectionSet

/-- A comment at the end of the text ends there, because a line ends it. -/
theorem skipBody_inStep (hmore : EndsRun (!isLineEnd ·) more) {opening : Span}
    {turns turns' depth : Nat} (h : turns ≤ turns') :
    InStep more (skipBody opening turns depth) (skipBody opening turns' depth) s := by
  induction turns generalizing turns' depth s with
  | zero =>
    have he : skipBody opening 0 depth s = .error (s.unclosed "\x7b" opening) s := by
      rw [skipBody]
      rfl
    exact .of_incomplete he rfl
  | succ turns ih =>
    obtain ⟨turns', rfl⟩ := Nat.exists_eq_add_of_le' (Nat.lt_of_lt_of_le (Nat.succ_pos _) h)
    have hle : turns ≤ turns' := by omega
    cases hs : s.rest with
    | nil => exact .of_incomplete (skipBody_end hs) rfl
    | cons c cs =>
      have hs' : (s.followedBy more).rest = c :: (cs ++ more) := by
        rw [followedBy, hs, List.cons_append]
      have hadvance : (s.followedBy more).advance = s.advance.followedBy more :=
        advance_followedBy (by simp [hs])
      by_cases hplain : c ∉ ['{', '}', '"', '#']
      · refine (ih hle).of_eq (skipBody_plain hplain hs) ?_
        rw [skipBody_plain hplain hs', hadvance]
      simp only [List.mem_cons, List.not_mem_nil, or_false, not_not] at hplain
      rcases hplain with rfl | rfl | rfl | rfl
      · refine (ih hle).of_eq (skipBody_open hs) ?_
        rw [skipBody_open hs', hadvance]
      · cases depth with
        | zero => exact (InStep.pure ()).of_eq (skipBody_close_last hs) (skipBody_close_last hs')
        | succ depth =>
          refine (ih hle).of_eq (skipBody_close hs) ?_
          rw [skipBody_close hs', hadvance]
      · exact (Token.string_inStep.bind fun _ s₁ _ => ih hle).of_eq (skipBody_quote hs)
          (skipBody_quote hs')
      · refine (ih hle).of_eq (skipBody_number_sign hs) ?_
        rw [skipBody_number_sign hs', skipComment, skipRun_followedBy (run_followedBy hmore)]
        rfl

theorem read_inStep (hmore : EndsRun (!isLineEnd ·) more) : InStep more read read s := by
  refine (Token.literal_inStep (by decide)).bind fun opening s₁ _ => .get ?_
  refine (skipBody_inStep hmore ?_).bind fun _ s₂ hskip => .get ?_
  · simp only [followedBy, List.length_append]
    omega
  · obtain ⟨body, rest, hbody, hrest, -⟩ := skipBody_ok (Nat.lt_succ_self _) hskip
    have htake : (s₁.followedBy more).rest.take
        ((s₁.followedBy more).rest.length - (s₂.followedBy more).rest.length) =
        s₁.rest.take (s₁.rest.length - s₂.rest.length) := by
      have hlen : (s₁.followedBy more).rest.length - (s₂.followedBy more).rest.length =
          s₁.rest.length - s₂.rest.length := by
        simp only [followedBy, List.length_append]
        omega
      rw [hlen, followedBy]
      exact List.take_append_of_le_length (Nat.sub_le _ _)
    simp only [htake]
    exact (Token.literal_inStep (by decide)).bind fun _ s₃ _ => .pure _

theorem read_failsAtEnd : FailsAtEnd read :=
  (Token.literal_failsAtEnd (by decide)).bind

end SelectionSet

namespace Operation

theorem readKind_inStep (hmore : EndsRun isNameContinue more) : InStep more readKind readKind s := by
  have heq := readKind_eq s
  have heq' := readKind_eq (s.followedBy more)
  rw [followedBy, leadingName?_append_of_endsRun hmore, ← followedBy] at heq'
  cases hword : leadingName? s.rest with
  | none =>
    rw [hword] at heq heq'
    exact (InStep.pure .query).of_eq heq heq'
  | some word =>
    rw [hword] at heq heq'
    dsimp only at heq heq'
    by_cases hfragment : word = "fragment".toList
    · rw [if_pos hfragment] at heq heq'
      rw [skipRun_followedBy (run_followedBy hmore)] at heq'
      exact (InStep.failWith fun _ => ⟨rfl, rfl, rfl, rfl⟩).of_eq heq heq'
    · rw [if_neg hfragment] at heq heq'
      cases hkind : OperationKind.ofKeyword? (String.ofList word) with
      | some kind =>
        rw [hkind] at heq heq'
        have hne : kind.keyword.toList ≠ [] := by
          cases kind <;> decide
        exact ((Token.keyword_inStep hmore hne).bind fun _ s₁ _ => .pure kind).of_eq heq heq'
      | none =>
        rw [hkind] at heq heq'
        exact (InStep.pure .query).of_eq heq heq'

theorem readVariables_keepsUp (hmore : EndsRun isTokenContinue more) (limit : Nat) :
    KeepsUp more (readVariables limit) (readVariables limit) s := by
  refine Token.peek?_bind_keepsUp (fun c? s₁ => ?_) (StaysAtEnd.pure [])
  split
  · exact VariableDefinition.readList_keepsUp hmore limit
  · exact (InStep.pure []).keepsUp

theorem readVariables_staysAtEnd (limit : Nat) : StaysAtEnd (readVariables limit) :=
  Token.peek?_bind_staysAtEnd (StaysAtEnd.pure [])

variable {kind : OperationKind} {name : Option String} {vs : List VariableDefinition}

theorem readEnd_failsAtEnd : FailsAtEnd (readEnd kind name vs) :=
  Token.peek?_bind_failsAtEnd SelectionSet.read_failsAtEnd.bind

theorem readEnd_inStep (hmore : EndsRun (!isLineEnd ·) more) :
    InStep more (readEnd kind name vs) (readEnd kind name vs) s := by
  refine Token.peek?_bind_inStep (fun c? s₁ => ?_) SelectionSet.read_failsAtEnd.bind
  split
  · exact unsupportedHere_inStep .operationDirectives
  · exact (SelectionSet.read_inStep hmore).bind fun set s₂ _ => .pure _

/-- What follows the closing brace is not looked at. -/
theorem read_inStep (hmore : EndsRun (!isLineEnd ·) more) (limit : Nat) :
    InStep more (read limit) (read limit) s := by
  have hname := hmore.of_lineEnd.isNameContinue
  rw [read_eq]
  refine (Token.peek_inStep _).bind fun _ s₁ _ => ?_
  refine (readKind_inStep hname).bind fun kind s₂ _ => ?_
  refine (Token.name?_keepsUp hname).bind_inStep (fun name s₃ _ => ?_)
    fun name => (readVariables_staysAtEnd limit).bind_failsAtEnd fun vs => readEnd_failsAtEnd
  exact (readVariables_keepsUp hmore.of_lineEnd limit).bind_inStep
    (fun vs s₄ _ => readEnd_inStep hmore) fun vs => readEnd_failsAtEnd

end Operation

end QueryDoc
