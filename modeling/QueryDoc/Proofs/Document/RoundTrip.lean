import QueryDoc.Document
import QueryDoc.Proofs.Atom.RoundTrip
import QueryDoc.Proofs.Document.Reading

/-! A document is read back from its text, in both styles, exactly if it is well formed. Every
document that has been read is. -/

namespace QueryDoc

theorem Style.defaultSeparator_eq (style : Style) :
    style.defaultSeparator = style.gap ++ '=' :: style.gap := by
  cases style <;> rfl

theorem Style.endsRun_gap (style : Style) {rest : List Char} (h : EndsRun isTokenContinue rest) :
    EndsRun isTokenContinue (style.gap ++ rest) := by
  cases style with
  | pretty => exact endsRun_cons.mpr (by decide)
  | minified => exact h

theorem TypeRef.spells_chars {t : TypeRef} (h : t.isWellFormed = true) {rest : List Char}
    (hrest : EndsRun isTokenContinue rest) : SpellsType (t.chars ++ rest) t rest := by
  induction t generalizing rest with
  | named name => exact .named (Atom.spells_name h hrest)
  | list inner ih =>
    have hinner : SpellsType (inner.chars ++ ']' :: rest) inner (']' :: rest) :=
      ih h (endsRun_cons.mpr (by decide))
    rw [chars, List.cons_append, List.cons_append, List.append_assoc]
    exact .list (.done _) hinner (.done _)
  | nonNull inner ih =>
    simp only [isWellFormed, Bool.and_eq_true, Bool.not_eq_true'] at h
    have hinner : SpellsType (inner.chars ++ '!' :: rest) inner ('!' :: rest) :=
      ih h.2 (endsRun_cons.mpr (by decide))
    rw [chars, List.append_assoc]
    exact .nonNull hinner h.1 (.done _)

def defaultChars (style : Style) : Option Atom → List Char
  | some value => style.defaultSeparator ++ value.chars style
  | none => []

theorem spells_default (style : Style) {value : Option Atom}
    (h : ∀ a ∈ value, a.isWellFormed = true) {rest : List Char}
    (hrest : EndsRun isTokenContinue rest) :
    SpellsDefault (defaultChars style value ++ rest) value rest ∧
      EndsRun isTokenContinue (defaultChars style value ++ rest) := by
  cases value with
  | none => exact ⟨.absent rest, hrest⟩
  | some a =>
    have ha := (Atom.spells_chars style (h a rfl) hrest).prepend (style.ignored_gap _)
    have hmark : EndsRun isTokenContinue ('=' :: (style.gap ++ (a.chars style ++ rest))) :=
      endsRun_cons.mpr (by decide)
    simp only [defaultChars, style.defaultSeparator_eq, List.append_assoc, List.cons_append]
    exact ⟨.given (style.ignored_gap _) ha, style.endsRun_gap hmark⟩

theorem spells_variable (style : Style) {v : VariableDefinition} (h : v.WellFormed)
    {rest : List Char} (hrest : EndsVariable rest) : SpellsVariable (v.chars style ++ rest) v rest := by
  obtain ⟨name, type, value, directives⟩ := v
  obtain ⟨hname, htype, hvalue, hdirectives⟩ := h
  cases hdirectives
  obtain ⟨hdefault, hends⟩ := spells_default style hvalue hrest.1
  have ht := (TypeRef.spells_chars htype hends).prepend (style.ignored_gap _)
  have hkey : EndsRun isTokenContinue
      (':' :: (style.gap ++ (type.chars ++ (defaultChars style value ++ rest)))) :=
    endsRun_cons.mpr (by decide)
  have hchars : VariableDefinition.chars style ⟨name, type, value, []⟩ ++ rest =
      '$' :: (name.toList ++
        ':' :: (style.gap ++ (type.chars ++ (defaultChars style value ++ rest)))) := by
    cases value with
    | none => simp [VariableDefinition.chars, style.keySeparator_eq, directivesChars, defaultChars]
    | some a =>
      simp [VariableDefinition.chars, style.keySeparator_eq, directivesChars, defaultChars]
  rw [hchars]
  exact .mk (.done _) (Atom.spells_name hname hkey) (.done _) ht hdefault hrest.2

def variablesChars (style : Style) (vs : List VariableDefinition) : List Char :=
  if vs.isEmpty then []
  else '(' :: separated style.itemSeparator (vs.map (·.chars style)) ++ [')']

theorem spells_variables (style : Style) {vs : List VariableDefinition}
    (h : ∀ v ∈ vs, v.WellFormed) (rest : List Char) :
    SpellsVariables (variablesChars style vs ++ rest) vs rest := by
  cases vs with
  | nil => exact .absent rest
  | cons v vs =>
    have hclose : EndsVariable (')' :: rest) :=
      ⟨endsRun_cons.mpr (by decide), by rw [significant_cons (by decide)]; simp⟩
    have heach : SpellsEach SpellsVariable
        (separated style.itemSeparator ((v :: vs).map (·.chars style)) ++ ')' :: rest) (v :: vs)
        (')' :: rest) := by
      refine .of_separated (fun _ _ _ _ hm h => h.prepend hm) style.ignored_itemSeparator ?_
        (fun w hw r hr => spells_variable style (h w hw) hr) hclose
      intro w hw r
      refine ⟨style.endsRun_itemSeparator _, ?_⟩
      rw [significant_eq_of_ignored (style.ignored_itemSeparator _)]
      simp [VariableDefinition.chars, significant_cons (show isSignificant '$' = true by decide)]
    have hchars : variablesChars style (v :: vs) ++ rest =
        '(' :: (separated style.itemSeparator ((v :: vs).map (·.chars style)) ++ ')' :: rest) := by
      simp [variablesChars]
    rw [hchars]
    exact .given (.done _) heach (.done _)

def nameChars : Option String → List Char
  | some name => ' ' :: name.toList
  | none => []

theorem isName_keyword (kind : OperationKind) : isName kind.keyword.toList = true := by
  cases kind <;> rfl

theorem spells_header (kind : OperationKind) {name : Option String}
    (h : ∀ n ∈ name, isName n.toList = true) {rest : List Char}
    (hrest : EndsRun isTokenContinue rest) :
    SpellsHeader (kind.keyword.toList ++ (nameChars name ++ rest)) kind name rest := by
  cases name with
  | none => exact .keyword (Atom.spells_name (isName_keyword kind) hrest)
  | some name =>
    have hspace : EndsRun isTokenContinue (' ' :: (name.toList ++ rest)) :=
      endsRun_cons.mpr (by decide)
    have hname := (Atom.spells_name (h name rfl) hrest).prepend (ignored_space (c := ' ') (by decide) _)
    exact .named (Atom.spells_name (isName_keyword kind) hspace) hname

theorem endsRun_variablesChars (style : Style) (vs : List VariableDefinition) {rest : List Char}
    (hrest : EndsRun isTokenContinue rest) :
    EndsRun isTokenContinue (variablesChars style vs ++ rest) := by
  cases vs with
  | nil => exact hrest
  | cons v vs => exact endsRun_cons.mpr (by decide)

theorem Operation.chars_of_not_isShorthand {op : Operation} (style : Style)
    (h : op.isShorthand = false) (hdirectives : op.directives = []) :
    op.chars style = op.kind.keyword.toList ++ (nameChars op.name ++
      (variablesChars style op.variableDefinitions ++ (style.gap ++ op.selectionSet.chars style))) := by
  simp only [chars, h, Bool.false_eq_true, if_false, headerChars, hdirectives, directivesChars,
    List.flatMap_nil, List.append_nil, List.append_assoc]
  cases op.name <;> rfl

/-- An operation without directives is spelled by its parts, with its selection set as a text. -/
theorem SpellsOperation.of_parts {op : Operation} {input vars brace inside rest : List Char}
    (hdirectives : op.directives = []) (hheader : SpellsHeader input op.kind op.name vars)
    (hvariables : SpellsVariables vars op.variableDefinitions brace)
    (hopen : Ignored brace ('{' :: (inside ++ '}' :: rest))) (hinside : Balanced inside) :
    SpellsOperation input
      { op with selectionSet := .ofBody (String.ofList (Text.trim inside)) } rest := by
  obtain ⟨kind, name, vs, directives, set⟩ := op
  cases hdirectives
  exact .mk hheader hvariables hopen hinside

theorem Operation.of_isShorthand {op : Operation} (h : op.isShorthand = true) :
    op.kind = .query ∧ op.name = none ∧ op.variableDefinitions = [] := by
  simp only [isShorthand, Bool.and_eq_true, beq_iff_eq, Option.isNone_iff_eq_none,
    List.isEmpty_iff] at h
  exact ⟨h.1.1.1, h.1.1.2, h.1.2⟩

/-- However the selection set has come about, its text stands for it once it is written. -/
theorem spells_operation_of_inside (style : Style) {op : Operation}
    (hname : ∀ n ∈ op.name, isName n.toList = true) (hvars : ∀ v ∈ op.variableDefinitions, v.WellFormed)
    (hdirectives : op.directives = []) {inside : List Char}
    (hset : op.selectionSet.chars style = '{' :: (inside ++ ['}'])) (hinside : Balanced inside)
    (rest : List Char) :
    SpellsOperation (op.chars style ++ rest)
      { op with selectionSet := .ofBody (String.ofList (Text.trim inside)) } rest := by
  have hbrace : op.selectionSet.chars style ++ rest = '{' :: (inside ++ '}' :: rest) := by
    rw [hset]
    simp
  by_cases hshort : op.isShorthand = true
  · obtain ⟨hkind, hnone, hvs⟩ := Operation.of_isShorthand hshort
    have hheader : SpellsHeader ('{' :: (inside ++ '}' :: rest)) op.kind op.name
        ('{' :: (inside ++ '}' :: rest)) := by
      rw [hkind, hnone]
      exact .absent _
    have hvariables : SpellsVariables ('{' :: (inside ++ '}' :: rest)) op.variableDefinitions
        ('{' :: (inside ++ '}' :: rest)) := by
      rw [hvs]
      exact .absent _
    rw [Operation.chars, if_pos hshort, List.nil_append, hbrace]
    exact .of_parts hdirectives hheader hvariables (.done _) hinside
  · have hends : EndsRun isTokenContinue (style.gap ++ (op.selectionSet.chars style ++ rest)) := by
      rw [hbrace]
      exact style.endsRun_gap (endsRun_cons.mpr (by decide))
    rw [Operation.chars_of_not_isShorthand style (by simpa using hshort) hdirectives]
    simp only [List.append_assoc]
    exact .of_parts hdirectives
      (spells_header op.kind hname (endsRun_variablesChars style _ hends))
      (spells_variables style hvars _) (hbrace ▸ style.ignored_gap _) hinside

theorem spells_operation (style : Style) {op : Operation} (h : op.WellFormed) (rest : List Char) :
    SpellsOperation (op.chars style ++ rest) op rest := by
  obtain ⟨place, hplace, hrun⟩ := h.closed
  obtain ⟨inside, hset, htrim, hinside⟩ :=
    SelectionSet.exists_inside style h.fields h.trimmed hplace hrun
  have hkept : SelectionSet.ofBody (String.ofList (Text.trim inside)) = op.selectionSet := by
    rw [htrim, String.ofList_toList, SelectionSet.ofBody, ← h.fields]
    cases op.selectionSet
    rfl
  have hh := spells_operation_of_inside style h.name h.vars h.directives hset hinside rest
  rwa [hkept] at hh

namespace Document

theorem wellFormed_of_parse {source : List Char} {d : Document} (h : parse source = .ok d) :
    d.WellFormed := by
  obtain ⟨hspells, hlevels⟩ := parse_ok_iff.mp h
  exact ⟨hspells.exists_wellFormed, hlevels⟩

theorem parse_chars_of_wellFormed {d : Document} (h : d.WellFormed) (style : Style) :
    parse (d.chars style) = .ok d := by
  obtain ⟨op, hd, hop⟩ := h.single
  have hspells := spells_operation style hop []
  rw [List.append_nil] at hspells
  refine parse_ok_iff.mpr ⟨?_, h.shallow⟩
  obtain ⟨definitions⟩ := d
  cases hd
  simpa [chars, separated_cons] using SpellsDocument.mk hspells (.done [])

/-- A text written anew in a style, or the error that it has. -/
def rewrite (style : Style) (source : List Char) : Except ReadError (List Char) :=
  (parse source).map (·.chars style)

/-- Reading a document back from its text is possible exactly for the well-formed ones, and for
those that were read in the first place. So it does not matter how often and in which styles a text
is written anew before the last time. -/
theorem parse_chars_eq_ok_iff_wellFormed (d : Document) (style other : Style) (source : List Char) :
    (parse (d.chars style) = .ok d ↔ d.WellFormed) ∧
    (parse (d.chars style) = .ok d ↔ ∃ text, parse text = .ok d) ∧
    (rewrite style source >>= rewrite other) = rewrite other source := by
  have hback : ∀ text e, parse text = .ok e → parse (e.chars style) = .ok e :=
    fun text e he => parse_chars_of_wellFormed (wellFormed_of_parse he) style
  refine ⟨⟨wellFormed_of_parse, fun h => parse_chars_of_wellFormed h style⟩,
    ⟨fun h => ⟨_, h⟩, fun ⟨text, h⟩ => hback text d h⟩, ?_⟩
  unfold rewrite
  cases hsource : parse source with
  | error e => rfl
  | ok e =>
    change (parse (e.chars style)).map (·.chars other) = .ok (e.chars other)
    rw [hback source e hsource]
    rfl

end Document

end QueryDoc
