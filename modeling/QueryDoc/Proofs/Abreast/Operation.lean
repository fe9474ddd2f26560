import QueryDoc.Proofs.Abreast.Value
import QueryDoc.Proofs.Operation.Reading

/-! Operations read abreast. In a selection set a line break stands where the other text may have two
characters, neither of which means anything there but the end of a comment. -/

namespace QueryDoc

open ReadM

namespace SelectionSet

/-- Line ends are passed over one by one. -/
theorem skipBody_lineEnds {opening : Span} {ends : List Char}
    (hends : ∀ c ∈ ends, isLineEnd c = true) (turns depth : Nat) {s : Scanner} {cs : List Char}
    (h : s.rest = ends ++ cs) :
    skipBody opening (turns + ends.length) depth s =
      skipBody opening turns depth (s.advanceBy ends.length) := by
  induction ends generalizing s with
  | nil => rfl
  | cons c ends ih =>
    have hh := List.forall_mem_cons.mp hends
    have hadvance : s.advance.rest = ends ++ cs := by
      rw [Scanner.rest_advance, h, List.cons_append, List.tail_cons]
    rw [List.length_cons, ← Nat.add_assoc, skipBody_plain (BodyScan.not_mem_of_isLineEnd hh.1) h,
      ih hh.2 hadvance]
    rfl

end SelectionSet

namespace Respelling

variable {R : Respelling} {passed : List Char} {s s' : Scanner}

/-- Either both runs refuse directives, or there are none and both go on. -/
theorem withoutDirectives_agree {α β : Type} {value : List Char → α → β → Prop} {feature : Feature}
    (hfeature : feature = .variableDirectives ∨ feature = .operationDirectives)
    (h : R.At passed s s') {act : ReadM α} {act' : ReadM β}
    (hact : ∀ ⦃now t t'⦄, R.At now t t' → R.Agree now value (act t) (act' t')) :
    R.Agree passed value
      ((do if (← Token.peek?) = some '@' then unsupportedHere feature else act : ReadM α) s)
      ((do if (← Token.peek?) = some '@' then unsupportedHere feature else act' : ReadM β) s') := by
  refine (peek?_agree h).bind ?_
  rintro mid c? _ t t' hpeek - - hat rfl
  split
  · next hc =>
    obtain ⟨cs, hs⟩ := Token.rest_of_peek? (hc ▸ hpeek)
    have hspan := hat.over_nextSpan hs
    refine .failWith (.of_over hspan ?_)
    rcases hfeature with rfl | rfl <;> exact ⟨mid, hspan.marks⟩
  · exact hact hat

section Variables

open VariableDefinition

theorem readDefault_agree (limit : Nat) :
    R.Maps (readDefault limit) (Option.map (Atom.respell R.lineBreak)) := by
  intro passed s s' h
  refine (peek?_agree h).next ?_
  rintro _ c? _ t t' hat rfl
  split
  · refine (literal_agree hat (by rfl)).next fun _ _ _ u u' hat₁ _ => ?_
    refine (readAtom_agree limit limit hat₁).next ?_
    rintro _ a _ v v' hat₂ rfl
    exact .pure hat₂ rfl
  · exact .pure hat rfl

theorem refuseDirectives_agree (h : R.At passed s s') (v : VariableDefinition) :
    R.Agree passed (fun _ a b => b = a.respell R.lineBreak) (refuseDirectives v s)
      (refuseDirectives (v.respell R.lineBreak) s') :=
  withoutDirectives_agree (.inl rfl) h fun _ _ _ hat => .pure hat rfl

theorem readVariable_agree (limit : Nat) :
    R.Maps (VariableDefinition.read limit) (VariableDefinition.respell R.lineBreak) := by
  intro passed s s' h
  rw [VariableDefinition.read_eq]
  refine (literal_agree h (by rfl)).next fun _ _ _ _ _ hat _ => ?_
  refine (name_agree hat).next ?_
  rintro _ name _ _ _ hat₁ rfl
  refine (literal_agree hat₁ (by rfl)).withHelp.next fun _ _ _ _ _ hat₂ _ => ?_
  refine (readType_agree limit limit hat₂).next ?_
  rintro _ _ type _ _ hat₃ rfl
  refine (readDefault_agree limit hat₃).next ?_
  rintro _ value _ _ _ hat₄ rfl
  exact refuseDirectives_agree hat₄ _

theorem readVariableList_agree (limit : Nat) :
    R.Maps (VariableDefinition.readList limit)
      (List.map (VariableDefinition.respell R.lineBreak)) := by
  intro passed s s' h
  refine (literal_agree h (by rfl)).next ?_
  rintro _ opening opening' t t' hat ⟨before, -, hopening⟩
  refine (peekInside_agree hat hopening).bind ?_
  rintro mid c _ u u' hpeek - - hat₁ rfl
  split
  · next hc =>
    obtain ⟨rfl, cs, hs⟩ := Token.peekInside_ok hpeek
    rw [← Scanner.rest_skipIgnored, hc] at hs
    have hspan := hat₁.over_nextSpan hs
    have hnames : (Cause.emptyConstruct "()").Names R.source
        (t.skipIgnored.nextSpan.Marks R.source) fun _ => False := ⟨mid, hspan.marks⟩
    exact .failWith ((SameFault.of_over hspan hnames).remark .help _)
  · refine .get ?_
    have hturns := hat₁.length_le_there
    rw [readEach_eq, readEach_eq]
    refine (readUntil_agree (readVariable_agree limit) (VariableDefinition.read_consumes limit) hopening
      hat₁ (by omega) (by omega)).next ?_
    rintro _ definitions _ v v' hat₂ rfl
    exact (literal_agree hat₂ (by rfl)).thenPure fun _ => rfl

end Variables

section Selections

open SelectionSet

/-- The scans of a body agree wherever they start, if the first one has this many turns. They may
start inside a line break, because each of its characters is passed over on its own. -/
def BodyAgrees (R : Respelling) (opening opening' : Span) (turns : Nat) : Prop :=
  ∀ ⦃passed s s' turns' depth⦄, R.Beside passed s s' → s.rest.length < turns →
    s'.rest.length < turns' → R.Agree passed (fun _ _ _ => True) (skipBody opening turns depth s)
      (skipBody opening' turns' depth s')

variable {opening opening' : Span} {turns turns' depth : Nat} {c : Char} {cs : List Char}

/-- One turn passes over a line feed, and as many as it has characters over the line break. -/
theorem BodyAgrees.newline (ih : R.BodyAgrees opening opening' turns) (h : R.Beside passed s s')
    (hs : s.rest = '\n' :: cs) (hturns : s.rest.length < turns + 1)
    (hturns' : s'.rest.length < turns') :
    R.Agree passed (fun _ _ _ => True) (skipBody opening (turns + 1) depth s)
      (skipBody opening' turns' depth s') := by
  have hlen : s.advance.rest.length < turns := by
    rw [hs, List.length_cons] at hturns
    rw [Scanner.rest_advance, hs, List.tail_cons]
    omega
  have hs' : s'.rest = R.lineBreak.chars ++ R.lineBreak.respell cs := by
    rw [h.rest, hs, LineBreak.respell_newline]
  rw [hs', List.length_append] at hturns'
  obtain ⟨turns', rfl⟩ := Nat.exists_eq_add_of_le' (Nat.le_trans (Nat.le_add_right _ _)
    (Nat.le_of_lt hturns'))
  rw [skipBody_plain (by decide) hs,
    skipBody_lineEnds (fun c hc => LineBreak.isLineEnd_of_mem_chars hc) turns' depth hs']
  refine (ih (h.advance_newline hs) hlen ?_).since (List.prefix_append _ _)
  rw [Scanner.rest_advanceBy, hs', List.drop_left]
  omega

/-- Any other character is the same on both sides, and so is what begins with it. -/
theorem BodyAgrees.character (ih : R.BodyAgrees opening opening' turns) (h : R.Beside passed s s')
    (hs : s.rest = c :: cs) (hc : c ≠ '\n') (hturns : s.rest.length < turns + 1)
    (hturns' : s'.rest.length < turns') :
    R.Agree passed (fun _ _ _ => True) (skipBody opening (turns + 1) depth s)
      (skipBody opening' turns' depth s') := by
  have hclean : R.At passed s s' := ⟨h, hs ▸ cleanCut_cons hc passed cs⟩
  have hs' : s'.rest = c :: R.lineBreak.respell cs := by
    rw [h.rest, hs, LineBreak.respell_cons hc]
  obtain ⟨turns', rfl⟩ := Nat.exists_eq_add_of_le' (Nat.lt_of_le_of_lt (Nat.zero_le _) hturns')
  have hlen : s.advance.rest.length < turns := by
    rw [hs, List.length_cons] at hturns
    rw [Scanner.rest_advance, hs, List.tail_cons]
    omega
  have hlen' : s'.advance.rest.length < turns' := by
    rw [hs', List.length_cons] at hturns'
    rw [Scanner.rest_advance, hs', List.tail_cons]
    omega
  have hstep (depth : Nat) : R.Agree passed (fun _ _ _ => True)
      (skipBody opening turns depth s.advance) (skipBody opening' turns' depth s'.advance) :=
    (ih (h.advance hs hc) hlen hlen').since (List.prefix_append passed [c])
  by_cases hplain : c ∉ ['{', '}', '"', '#']
  · rw [skipBody_plain hplain hs, skipBody_plain hplain hs']
    exact hstep depth
  simp only [List.mem_cons, List.not_mem_nil, or_false, not_not] at hplain
  rcases hplain with rfl | rfl | rfl | rfl
  · rw [skipBody_open hs, skipBody_open hs']
    exact hstep (depth + 1)
  · cases depth with
    | zero =>
      rw [skipBody_close_last hs, skipBody_close_last hs']
      exact .ok List.prefix_rfl hclean trivial
    | succ depth =>
      rw [skipBody_close hs, skipBody_close hs']
      exact hstep depth
  · rw [skipBody_quote hs, skipBody_quote hs']
    refine (string_agree hclean).bind ?_
    rintro _ text _ t t' htext htext' - hat -
    have h₁ := length_lt_of_string htext
    have h₂ := length_lt_of_string htext'
    exact ih hat.toBeside (by omega) (by omega)
  · have hat : R.Beside (passed ++ s.run (!isLineEnd ·)) s.skipComment s'.skipComment :=
      (hclean.skipRun (LineBreak.same_on_lineEnds rfl)).toBeside
    have h₁ := length_skipComment_lt hs
    have h₂ := length_skipComment_lt hs'
    rw [skipBody_number_sign hs, skipBody_number_sign hs']
    exact (ih hat (by omega) (by omega)).since (List.prefix_append _ _)

theorem skipBody_agree {before : List Char} (hopening : R.Over ⟨before, ['{']⟩ opening opening')
    (turns : Nat) : R.BodyAgrees opening opening' turns := by
  induction turns with
  | zero => exact fun _ _ _ _ _ _ hturns => absurd hturns (Nat.not_lt_zero _)
  | succ turns ih =>
    intro passed s s' turns' depth h hturns hturns'
    cases hs : s.rest with
    | nil =>
      have hs' : s'.rest = [] := by rw [h.rest, hs, LineBreak.respell_nil]
      obtain ⟨turns', rfl⟩ :=
        Nat.exists_eq_add_of_le' (Nat.lt_of_le_of_lt (Nat.zero_le _) hturns')
      rw [skipBody_end hs, skipBody_end hs']
      have hclean : R.At passed s s' := ⟨h, hs ▸ (EndsRun.nil isLineEnd).cleanCut passed⟩
      exact .error (hclean.unclosed hs hopening)
    | cons c cs =>
      by_cases hnew : c = '\n'
      · subst hnew
        exact ih.newline h hs hturns hturns'
      · exact ih.character h hs hnew hturns hturns'

theorem readSelectionSet_agree : R.Maps SelectionSet.read (SelectionSet.respell R.lineBreak) := by
  intro passed s s' h
  refine (literal_agree h (by rfl)).next ?_
  rintro _ opening opening' t t' hat ⟨before, -, hopening⟩
  refine .get ((skipBody_agree hopening _ hat.toBeside (Nat.lt_succ_self _)
    (Nat.lt_succ_self _)).bind ?_)
  rintro _ _ _ u u' - - hnow hat₁ -
  refine .get ((literal_agree hat₁ (by rfl)).thenPure fun _ => ?_)
  -- The body is what has been passed over since the brace.
  obtain ⟨body, -, hbody⟩ := hat.exists_text hat₁ hnow
  have hbody' : t'.rest = R.lineBreak.respell body ++ u'.rest := by
    rw [hat.rest, hbody, LineBreak.respell_append, hat₁.rest]
  have htake : ∀ cs ds : List Char, (cs ++ ds).take ((cs ++ ds).length - ds.length) = cs := by
    simp
  rw [hbody, htake, hbody', htake, LineBreak.trim_respell, SelectionSet.respell, ofBody, ofBody,
    LineBreak.text, String.toList_ofList]

end Selections

section Operations

open Operation

theorem readKind_agree : R.Maps readKind id := by
  intro passed s s' h
  have hlead : leadingName? s'.rest = leadingName? s.rest := by
    rw [h.rest, LineBreak.leadingName?_respell]
  rw [readKind_eq, readKind_eq, hlead]
  cases hword : leadingName? s.rest with
  | none => exact .ok List.prefix_rfl h rfl
  | some word =>
    obtain ⟨hname, rest, hrest, hends⟩ := leadingName?_eq_some hword
    dsimp only
    by_cases hfragment : word = "fragment".toList
    · rw [if_pos hfragment, if_pos hfragment]
      have hat := h.skipRun (LineBreak.same_on_lineEnds (p := isNameContinue) rfl)
      have hrun : s.run isNameContinue = word := by
        rw [Scanner.run, hrest, takeWhile_append_of_endsRun (isNameContinue_of_isName hname) hends]
      have hsplit := (Scanner.run_append_rest_skipRun s isNameContinue).symm
      rw [hrun] at hsplit
      have hspan := h.over_spanFrom hat hsplit (isLineEnd_of_mem_name hname)
      exact .failWith (.of_over hspan ⟨passed, hfragment ▸ hspan.marks⟩)
    · rw [if_neg hfragment, if_neg hfragment]
      cases hkind : OperationKind.ofKeyword? (String.ofList word) with
      | none => exact .ok List.prefix_rfl h rfl
      | some kind =>
        have hkeyword : word = kind.keyword.toList := by
          rw [← OperationKind.ofKeyword?_eq_some_iff.mp hkind, String.toList_ofList]
        have hsig : significant s.rest = s.rest := by
          obtain ⟨c, ds, hcons, hc⟩ := exists_cons_of_isName hname
          rw [hrest, hcons, List.cons_append, significant_cons (isSignificant_of_isNameStart hc)]
        refine (keyword_agree h (.inl ?_)).thenPure fun _ => rfl
        rw [hsig, hword, hkeyword]

theorem readVariables_agree (limit : Nat) :
    R.Maps (readVariables limit) (List.map (VariableDefinition.respell R.lineBreak)) := by
  intro passed s s' h
  refine (peek?_agree h).next ?_
  rintro _ c? _ t t' hat rfl
  split
  · exact readVariableList_agree limit hat
  · exact .pure hat rfl

theorem readEnd_agree (h : R.At passed s s') (kind : OperationKind) (name : Option String)
    (vs : List VariableDefinition) :
    R.Agree passed (fun _ a b => b = a.respell R.lineBreak) (readEnd kind name vs s)
      (readEnd kind name (vs.map (VariableDefinition.respell R.lineBreak)) s') := by
  refine withoutDirectives_agree (.inr rfl) h fun _ t t' hat => ?_
  refine (readSelectionSet_agree hat).next ?_
  rintro _ set _ u u' hat₁ rfl
  exact .pure hat₁ rfl

theorem readOperation_agree (limit : Nat) :
    R.Maps (Operation.read limit) (Operation.respell R.lineBreak) := by
  intro passed s s' h
  rw [Operation.read_eq]
  refine (peek_agree h "operation definition").next fun _ _ _ _ _ hat _ => ?_
  refine (readKind_agree hat).next ?_
  rintro _ _ kind _ _ hat₁ rfl
  refine (name?_agree hat₁).next ?_
  rintro _ name _ _ _ hat₂ rfl
  refine (readVariables_agree limit hat₂).next ?_
  rintro _ vs _ _ _ hat₃ rfl
  exact readEnd_agree hat₃ kind name vs

end Operations

end Respelling

end QueryDoc
