import QueryDoc.Proofs.Checked.Value
import QueryDoc.Proofs.Document.Reading

/-! Variables, selection sets, operations and documents, read by byte offsets. -/

namespace QueryDoc

open CursorM

variable {source : List Char} {d limit : Nat} {s : Scanner}

namespace VariableDefinition

def readDefaultChecked (limit : Nat) : CursorM (Option Atom) := do
  if (← peek?) = some '=' then
    let _ ← recheck (literal "=")
    let value ← Atom.readChecked limit
    return some value
  else return none

def refuseDirectivesChecked (v : VariableDefinition) : CursorM VariableDefinition := do
  if (← peek?) = some '@' then refuse fun s => .unsupported .variableDirectives s.nextSpan
  else return v

def readChecked (limit : Nat) : CursorM VariableDefinition := do
  let _ ← literal "$"
  let name ← CursorM.name
  let _ ← withHelp "variable definitions look like `$name: Type`" (literal ":")
  let type ← TypeRef.readChecked limit
  let defaultValue ← readDefaultChecked limit
  refuseDirectivesChecked { name, type, defaultValue }

def readListChecked (limit : Nat) : CursorM (List VariableDefinition) := do
  let opening ← recheck (literal "(")
  if (← peekInside "(" opening) = ')' then refuse fun s => .emptyVariables s.nextSpan
  else
    let definitions ←
      CursorM.readUntil ')' "(" opening (readChecked limit) ((← remaining).length + 1)
    let _ ← recheck (literal ")")
    return definitions

theorem readDefaultChecked_follows (limit : Nat) :
    Follows source 0 (readDefaultChecked limit) (readDefault limit) s := by
  refine Follows.peek?.bind fun c t hpeek => ?_
  split
  · next hsign =>
    rw [hsign] at hpeek
    refine (Follows.recheck_literal "=" (Token.significant_of_peek? hpeek) rfl).bind fun _ _ _ => ?_
    exact (Atom.readChecked_follows limit).bind fun _ _ _ => .pure _
  · exact .pure _

theorem refuseDirectivesChecked_follows (v : VariableDefinition) :
    Follows source d (refuseDirectivesChecked v) (refuseDirectives v) s := by
  refine Follows.peek?.bind fun c t _ => ?_
  split
  · exact .refuse _
  · exact .pure _

theorem readChecked_follows (limit : Nat) : Follows source 0 (readChecked limit) (read limit) s := by
  rw [read_eq]
  refine (Follows.literal "$").bind fun _ _ _ => Follows.name.bind fun name _ _ => ?_
  refine ((Follows.literal ":").withHelp _).bind fun _ _ _ => ?_
  refine (TypeRef.readChecked_follows limit).bind fun t _ _ => ?_
  exact (readDefaultChecked_follows limit).bind fun value _ _ => refuseDirectivesChecked_follows _

theorem readListChecked_follows (limit : Nat) (h : ∃ cs, significant s.rest = '(' :: cs) :
    Follows source 0 (readListChecked limit) (readList limit) s := by
  refine (Follows.recheck_literal "(" h rfl).bind fun opening t _ => ?_
  refine (Follows.peekInside "(" opening).bind fun c u _ => ?_
  split
  · exact .refuse _
  refine .get (.look remaining_eq ?_)
  rw [readEach_eq]
  refine (Follows.readUntil ')' "(" opening (readChecked_follows limit) (read_consumes limit)
    (Nat.lt_succ_self _)).bind fun vs t hvs => ?_
  exact (Follows.recheck_literal ")" (readUntil_closing hvs) rfl).bind fun _ _ _ => .pure _

end VariableDefinition

namespace SelectionSet

/-- The brace that opens the selection set counts among those that are open. -/
def skipBodyChecked (opening : Span) : (turns : Nat) → (depth : Nat) → CursorM Unit
  | 0, _ => fail .endless
  | turns + 1, depth => do
    match ← peekChar with
    | none => refuse (·.unclosed "\x7b" opening)
    | some c =>
      if c = '{' then
        consume
        skipBodyChecked opening turns (depth + 1)
      else if c = '}' then
        match depth with
        | 0 => fail .brace
        | depth + 1 =>
          if depth = 0 then return ()
          else
            consume
            skipBodyChecked opening turns depth
      else if c = '"' then
        let _ ← CursorM.string
        skipBodyChecked opening turns depth
      else if c = '#' then
        skipComment
        skipBodyChecked opening turns depth
      else
        consume
        skipBodyChecked opening turns depth

def readChecked : CursorM SelectionSet := do
  let opening ← literal "\x7b"
  let start := (← get).position.offset
  skipBodyChecked opening ((← remaining).length + 1) 1
  let body ← slice start (← get).position.offset
  let _ ← recheck (literal "\x7d")
  return .ofBody (String.ofList (Text.trim body))

/-- The braces that are open are those that have been opened inside and the first one. -/
theorem skipBodyChecked_follows (opening : Span) {turns : Nat} (hturns : s.rest.length < turns)
    (depth : Nat) :
    Follows source d (skipBodyChecked opening turns (depth + 1)) (skipBody opening turns depth) s := by
  induction turns generalizing depth s with
  | zero => omega
  | succ turns ih =>
    intro hs
    rw [skipBodyChecked, bind_of_ok (peekChar_eq hs)]
    cases hrest : s.rest with
    | nil =>
      rw [skipBody_end hrest, Scanner.peek?, hrest]
      exact Follows.refuse (·.unclosed "\x7b" opening) hs
    | cons c cs =>
      have hadvance : s.advance.rest.length < turns := by
        rw [hrest, List.length_cons] at hturns
        rw [Scanner.rest_advance, hrest, List.tail_cons]
        omega
      rw [Scanner.peek?, hrest, List.head?_cons]
      dsimp only
      split
      · next hopen =>
        subst hopen
        rw [skipBody_open hrest, bind_of_ok (consume_eq hs)]
        exact ih hadvance (depth + 1) hs.advance
      split
      · next hclose =>
        subst hclose
        cases depth with
        | zero =>
          rw [skipBody_close_last hrest, if_pos rfl]
          exact .ok hs
        | succ depth =>
          rw [skipBody_close hrest, if_neg (Nat.succ_ne_zero depth), bind_of_ok (consume_eq hs)]
          exact ih hadvance depth hs.advance
      split
      · next hquote =>
        subst hquote
        have hhere : ∃ cs, significant s.rest = '"' :: cs :=
          ⟨cs, by rw [hrest, significant_cons (by decide)]⟩
        rw [skipBody_quote hrest]
        refine (Follows.string hhere).bind (fun text t hread => ih ?_ depth) hs
        have hlt := length_lt_of_string hread
        omega
      split
      · next hsign =>
        subst hsign
        have hpeek : s.peek? = some '#' := by rw [Scanner.peek?, hrest, List.head?_cons]
        rw [skipBody_number_sign hrest, bind_of_ok (CursorM.skipComment_eq hs hpeek)]
        have hlt := length_skipComment_lt hrest
        exact ih (by omega) depth hs.skipComment
      · rw [skipBody_plain (by simp_all) hrest, bind_of_ok (consume_eq hs)]
        exact ih hadvance depth hs.advance

theorem readChecked_follows : Follows source d readChecked read s := by
  refine (Follows.literal "\x7b").bind fun opening t _ => .get (.look (fun _ => rfl) ?_)
  refine .look remaining_eq fun ht => ?_
  refine ((skipBodyChecked_follows opening (Nat.lt_succ_self _) 0).bind fun _ u hskip => ?_) ht
  refine .get (.look (fun _ => rfl) ?_)
  obtain ⟨body, rest, -, hrest, -⟩ := skipBody_ok (Nat.lt_succ_self _) hskip
  have hclosing : ∃ cs, significant u.rest = '}' :: cs :=
    ⟨rest, by rw [hrest, significant_cons (by decide)]⟩
  obtain ⟨n, rfl⟩ := (skipBody_advances _ _ _).exists_of_ok hskip
  -- What has been passed over is all but what is left.
  have hsuffix : (t.advanceBy n).rest <:+ t.rest := by
    rw [Scanner.rest_advanceBy]
    exact List.drop_suffix n _
  have hsplit := (List.suffix_iff_eq_append.mp hsuffix).symm
  refine .look (fun _ => slice_eq ht hsplit _ rfl) ?_
  exact (Follows.recheck_literal "\x7d" hclosing rfl).bind fun _ _ _ => .pure _

end SelectionSet

namespace Operation

def readKindChecked : CursorM OperationKind := do
  match ← peekName with
  | none => return .query
  | some word =>
    if word = "fragment".toList then
      let start := (← get).position
      let _ ← consumeWhile isNameContinue
      refuse fun s => .unsupported .fragmentDefinitions (s.spanFrom start)
    else
      match OperationKind.ofKeyword? (String.ofList word) with
      | some kind =>
        let _ ← recheck (keyword kind.keyword)
        return kind
      | none => return .query

def readVariablesChecked (limit : Nat) : CursorM (List VariableDefinition) := do
  if (← peek?) = some '(' then VariableDefinition.readListChecked limit else return []

def readEndChecked (kind : OperationKind) (name : Option String)
    (variableDefinitions : List VariableDefinition) : CursorM Operation := do
  if (← peek?) = some '@' then refuse fun s => .unsupported .operationDirectives s.nextSpan
  else
    let selectionSet ← SelectionSet.readChecked
    return { kind, name, variableDefinitions, selectionSet }

def readChecked (limit : Nat) : CursorM Operation := do
  let _ ← peek "operation definition"
  let kind ← readKindChecked
  let name ← name?
  let variableDefinitions ← readVariablesChecked limit
  readEndChecked kind name variableDefinitions

theorem readKindChecked_follows : Follows source d readKindChecked readKind s := by
  refine .get (.look peekName_eq ?_)
  cases hname : s.name? with
  | none => exact .pure _
  | some word =>
    dsimp only
    split
    · refine .look (fun _ => rfl) ?_
      exact .step (fun h => consumeWhile_eq h _) rfl (fun h => h.skipRun _) (.refuse _)
    · cases hkind : OperationKind.ofKeyword? (String.ofList word) with
      | none => exact .pure _
      | some kind =>
        have hlead : leadingName? (significant s.rest) = some word := by
          obtain ⟨hword, rest, hrest, -⟩ := leadingName?_eq_some hname
          obtain ⟨c, cs, rfl, hc⟩ := exists_cons_of_isName hword
          rw [hrest, List.cons_append, significant_cons (isSignificant_of_isNameStart hc),
            ← List.cons_append, ← hrest]
          exact hname
        obtain ⟨rest, -, hspells⟩ := spellsName_of_leadingName? hlead
        rw [OperationKind.ofKeyword?_eq_some_iff.mp hkind] at hspells
        obtain ⟨span, t, hread, -⟩ := Token.keyword_of_spells hspells rfl
        exact ((Follows.keyword _).recheck ⟨span, t, hread⟩).bind fun _ _ _ => .pure _

theorem readVariablesChecked_follows (limit : Nat) :
    Follows source 0 (readVariablesChecked limit) (readVariables limit) s := by
  refine Follows.peek?.bind fun c t hpeek => ?_
  split
  · next hparen =>
    rw [hparen] at hpeek
    exact VariableDefinition.readListChecked_follows limit (Token.significant_of_peek? hpeek)
  · exact .pure _

theorem readEndChecked_follows (kind : OperationKind) (name : Option String)
    (vs : List VariableDefinition) :
    Follows source d (readEndChecked kind name vs) (readEnd kind name vs) s := by
  refine Follows.peek?.bind fun c t _ => ?_
  split
  · exact .refuse _
  · exact SelectionSet.readChecked_follows.bind fun _ _ _ => .pure _

theorem readChecked_follows (limit : Nat) : Follows source 0 (readChecked limit) (read limit) s := by
  rw [read_eq]
  refine (Follows.peek _).bind fun _ _ _ => readKindChecked_follows.bind fun kind _ _ => ?_
  refine Follows.name?.bind fun name _ _ => ?_
  refine (readVariablesChecked_follows limit).bind fun vs _ _ => ?_
  exact readEndChecked_follows kind name vs

end Operation

namespace Document

def finishChecked : CursorM Unit := do
  match ← peek? with
  | none => return ()
  | some c =>
    if c = '{' ∨ isNameStart c then
      refuse fun s => (ReadError.unsupported .multipleDefinitions s.nextSpan).addNote
        "only the first definition of a document is read"
    else
      refuse fun s =>
        let e := s.unexpected ["end of input"]
        if isPunctuator c then e.addNote s!"`{c}` does not start a definition" else e

def readChecked (limit : Nat) : CursorM Document := do
  let op ← Operation.readChecked limit
  finishChecked
  return { definitions := [op] }

theorem finishChecked_follows : Follows source d finishChecked finish s := by
  refine Follows.peek?.bind fun c t _ => ?_
  cases c with
  | none => exact .pure _
  | some c =>
    dsimp only
    split <;> exact .refuse _

theorem readChecked_follows (limit : Nat) : Follows source 0 (readChecked limit) (read limit) s :=
  (Operation.readChecked_follows limit).bind fun _ _ _ =>
    finishChecked_follows.bind fun _ _ _ => .pure _

end Document

end QueryDoc
