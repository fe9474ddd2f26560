import QueryDoc.Document
import QueryDoc.Proofs.Style.Steady

/-! Both styles write the same tokens. Where they differ there is nothing but white space, which stands
where a token ends anyway, and never in a comment: one that is open at the end of a text that is kept
is ended in both styles. -/

namespace QueryDoc

namespace Atom

theorem steady_fields {fields : List (String × Atom)}
    (h : ∀ field ∈ fields, isName field.1.toList = true ∧ Steady fun style => field.2.chars style) :
    Steady fun style => fieldsChars style fields := by
  simp only [fieldsChars, fieldChars_eq_map]
  exact steady_items fun field hm => .keyed (h field hm).1 (h field hm).2

theorem steady_chars {a : Atom} (h : a.isTidy = true) : Steady fun style => a.chars style := by
  induction hn : a.nesting using Nat.strongRecOn generalizing a with
  | ind n ih =>
    have hbalanced := balanced_chars .pretty h
    cases a with
    | null => exact steady_of_balanced hbalanced
    | bool value => cases value <;> exact steady_of_balanced hbalanced
    | int n => exact steady_of_balanced hbalanced
    | float x => exact steady_of_balanced hbalanced
    | string text => exact steady_of_balanced hbalanced
    | enum name => exact steady_of_balanced hbalanced
    | list items =>
      have hitems : Steady fun style => separated style.itemSeparator (items.map (chars style)) :=
        steady_items fun item hm =>
          ih _ (hn ▸ nesting_lt_of_mem hm) (itemsTidy_iff.mp h item hm) rfl
      simp only [chars_list]
      exact .mark (by decide) (hitems.append (.mark (by decide) .nil) (.cons (by decide)))
    | object fields =>
      have hfields : Steady fun style => fieldsChars style fields := by
        refine steady_fields fun field hm => ?_
        obtain ⟨hkey, hvalue⟩ := fieldsTidy_iff.mp h field hm
        exact ⟨hkey, ih _ (hn ▸ nesting_lt_of_mem_fields hm) hvalue rfl⟩
      exact .mark (by decide) (hfields.append (.mark (by decide) .nil) (.cons (by decide)))

end Atom

theorem detached_argumentsChars (arguments : List (String × Atom)) :
    Detached fun style => argumentsChars style arguments := by
  simp only [argumentsChars]
  split
  · exact .nil
  · exact .cons (by decide)

theorem steady_argumentsChars {arguments : List (String × Atom)}
    (h : Atom.fieldsTidy arguments = true) : Steady fun style => argumentsChars style arguments := by
  have hfields : Steady fun style => Atom.fieldsChars style arguments := by
    refine Atom.steady_fields fun field hm => ?_
    obtain ⟨hkey, hvalue⟩ := Atom.fieldsTidy_iff.mp h field hm
    exact ⟨hkey, Atom.steady_chars hvalue⟩
  simp only [argumentsChars]
  split
  · exact .nil
  · exact .mark (by decide) (hfields.append (.mark (by decide) .nil) (.cons (by decide)))

theorem Directive.steady_chars {d : Directive} (h : d.isTidy = true) :
    Steady fun style => d.chars style := by
  obtain ⟨hname, harguments⟩ := Bool.and_eq_true_iff.mp h
  exact .mark (by decide)
    ((Steady.name hname).append (steady_argumentsChars harguments) (detached_argumentsChars _))

theorem detached_directivesChars (directives : List Directive) :
    Detached fun style => directivesChars style directives :=
  detached_flatMap fun _ _ => .cons (by decide)

theorem steady_directivesChars {directives : List Directive}
    (h : ∀ d ∈ directives, d.isTidy = true) : Steady fun style => directivesChars style directives := by
  refine steady_flatMap (fun d hm => ?_) fun _ _ => .cons (by decide)
  exact (d.steady_chars (h d hm)).space

/-- Whether a text does not end in a string. -/
def endsOutsideString (body : List Char) : Bool :=
  BodyPlace.after .code body != .string

theorem endsRun_bodyPadding (style : Style) (body rest : List Char) :
    EndsRun isTokenContinue (bodyPadding style body ++ '}' :: rest) := by
  unfold bodyPadding
  split
  · exact endsRun_cons.mpr (by decide)
  · exact style.endsRun_gap (endsRun_cons.mpr (by decide))

theorem ignored_bodyPadding (style : Style) (body rest : List Char) :
    Ignored (bodyPadding style body ++ rest) rest := by
  unfold bodyPadding
  split
  · exact ignored_space (by decide) rest
  · exact style.ignored_gap rest

/-- The brace after a text that is kept is a token of its own. -/
theorem steady_body {body : List Char} (h : endsOutsideString body = true) :
    Steady fun style => body ++ (bodyPadding style body ++ ['}']) := by
  obtain ⟨ts, hts⟩ := keepsTokens_of_after (by simpa [endsOutsideString] using h)
  refine ⟨ts ++ [['}']], fun style rest _ => ?_⟩
  have hcomment : BodyPlace.after .code body = .comment →
      EndsRun (!isLineEnd ·) (bodyPadding style body ++ '}' :: rest) := by
    intro hplace
    rw [bodyPadding, if_pos (BodyScan.endsInComment_of_after hplace)]
    exact endsRun_cons.mpr (by decide)
  have hbody := hts _ (endsRun_bodyPadding style body rest) hcomment
  rw [tokens_of_ignored (ignored_bodyPadding style body _), tokens_mark (by decide)] at hbody
  simpa using hbody

namespace SelectionSet

theorem detached_chars (set : SelectionSet) : Detached fun style => set.chars style := by
  simp only [chars_eq]
  exact .cons (by decide)

theorem steady_spaced {fields : List Field} (h : ∀ field ∈ fields, Steady fun style => field.chars style)
    {text : Style → List Char} (htext : Steady text) :
    Steady fun style => (fields.map (·.chars style)).flatMap (· ++ [' ']) ++ text style := by
  induction fields with
  | nil => exact htext
  | cons field fields ih =>
    obtain ⟨hfield, hfields⟩ := List.forall_mem_cons.mp h
    have hrest := (ih hfields).space
    simpa using hfield.append hrest (.cons (by decide))

theorem steady_of_fields {set : SelectionSet}
    (hfields : ∀ field ∈ set.fields, Steady fun style => field.chars style)
    (hbody : endsOutsideString set.body.toList = true) : Steady fun style => set.chars style := by
  simp only [chars_eq, insideChars]
  split
  · exact .mark (by decide) (.mark (by decide) .nil)
  have hinside : Steady fun style => set.fieldsChars style ++
      (set.body.toList ++ (bodyPadding style set.body.toList ++ ['}'])) := by
    by_cases hempty : set.body.isEmpty = true
    · have hnil : set.body.toList = [] := by simpa using hempty
      have hdetached : Detached fun style =>
          set.body.toList ++ (bodyPadding style set.body.toList ++ ['}']) := by
        intro style rest _
        simp only [hnil, List.nil_append, List.append_assoc, List.cons_append]
        exact endsRun_bodyPadding style [] rest
      have hspaces : Steady fun style => separated [' '] (set.fields.map (·.chars style)) :=
        steady_separated (fun _ => ignored_space (by decide))
          (fun _ _ => endsRun_cons.mpr (by decide)) hfields
      simp only [fieldsChars, if_pos hempty]
      exact hspaces.append (steady_body hbody) hdetached
    · simp only [fieldsChars, if_neg hempty]
      exact steady_spaced hfields (steady_body hbody)
  simpa only [List.append_assoc] using
    Steady.mark (by decide : isMark '{' = true) (.blank Style.ignored_gap hinside)

end SelectionSet

theorem Field.steady_chars {field : Field} (h : field.TidyParts)
    (hset : ∀ set ∈ field.selectionSet, Steady fun style => set.chars style) :
    Steady fun style => field.chars style := by
  have hbraces : Steady fun style => field.selectionSet.elim [] (style.gap ++ ·.chars style) := by
    cases hs : field.selectionSet with
    | none => exact .nil
    | some set => exact .blank Style.ignored_gap (hset set hs)
  have hdetached : Detached fun style =>
      field.selectionSet.elim [] (style.gap ++ ·.chars style) := by
    cases field.selectionSet with
    | none => exact .nil
    | some set => exact Style.detached_gap set.detached_chars
  have hrest := (steady_directivesChars h.directives).append hbraces hdetached
  have hafter := (steady_argumentsChars h.arguments).append hrest
    ((detached_directivesChars _).append hdetached)
  have hname := (Steady.name h.name).append hafter
    ((detached_argumentsChars _).append ((detached_directivesChars _).append hdetached))
  simp only [chars_eq, List.append_assoc]
  cases hl : field.aliasName with
  | none => exact hname
  | some label =>
    have hh := Steady.keyed (h.label label hl) hname
    simpa using hh

/-- A tidy selection set has the same tokens in both styles, and so has a tidy field. -/
theorem SelectionSet.steady_of_tidy :
    (∀ set : SelectionSet, set.isTidy endsOutsideString = true → Steady fun style => set.chars style) ∧
      ∀ field : Field, field.isTidy endsOutsideString = true → Steady fun style => field.chars style := by
  refine SelectionSet.induction (fun field ih h => ?_) fun fields body ih h => ?_
  · obtain ⟨hparts, hset⟩ := Field.isTidy_iff.mp h
    exact field.steady_chars hparts fun set hm => ih set hm (hset set hm)
  · obtain ⟨hfields, hbody⟩ := SelectionSet.isTidy_iff.mp h
    exact steady_of_fields (fun field hm => ih field hm (hfields field hm)) hbody

/-- Whether the name in a type is a name. Marks that it is not null may stand one after another. -/
def TypeRef.isTidy (t : TypeRef) : Bool :=
  isName t.innermostName.toList

theorem TypeRef.balanced_chars {t : TypeRef} (h : t.isTidy = true) : Balanced t.chars := by
  induction t with
  | named name => exact balanced_name h
  | list inner ih => exact .plain (by decide) ((ih h).append (.plain (by decide) .nil))
  | nonNull inner ih => exact (ih h).append (.plain (by decide) .nil)

def VariableDefinition.isTidy (v : VariableDefinition) : Bool :=
  isName v.name.toList && v.type.isTidy && v.defaultValue.all (·.isTidy) &&
    v.directives.all (·.isTidy)

theorem detached_defaultChars (value : Option Atom) : Detached fun style => defaultChars style value := by
  cases value with
  | none => exact .nil
  | some a =>
    simp only [defaultChars, Style.defaultSeparator_eq, List.append_assoc]
    exact Style.detached_gap (.cons (by decide))

theorem steady_defaultChars {value : Option Atom} (h : ∀ a ∈ value, a.isTidy = true) :
    Steady fun style => defaultChars style value := by
  cases value with
  | none => exact .nil
  | some a =>
    have ha := Steady.blank Style.ignored_gap (Atom.steady_chars (h a rfl))
    have heq := Steady.blank Style.ignored_gap (.mark (by decide : isMark '=' = true) ha)
    simpa [defaultChars, Style.defaultSeparator_eq] using heq

theorem VariableDefinition.chars_eq (style : Style) (v : VariableDefinition) :
    v.chars style = '$' :: (v.name.toList ++ style.keySeparator ++
      (v.type.chars ++ (defaultChars style v.defaultValue ++ directivesChars style v.directives))) := by
  obtain ⟨name, type, value, directives⟩ := v
  cases value <;> simp [chars, defaultChars]

theorem VariableDefinition.steady_chars {v : VariableDefinition} (h : v.isTidy = true) :
    Steady fun style => v.chars style := by
  simp only [isTidy, Bool.and_eq_true, Option.all_eq_true, List.all_eq_true] at h
  obtain ⟨⟨⟨hname, htype⟩, hvalue⟩, hdirectives⟩ := h
  have hafter := (steady_defaultChars hvalue).append (steady_directivesChars hdirectives)
    (detached_directivesChars _)
  have hrest := (steady_of_balanced (TypeRef.balanced_chars htype)).append hafter
    ((detached_defaultChars _).append (detached_directivesChars _))
  simp only [chars_eq]
  exact .mark (by decide) (.keyed hname hrest)

def Operation.isTidy (op : Operation) : Bool :=
  op.name.all (isName ·.toList) && op.variableDefinitions.all (·.isTidy) &&
    op.directives.all (·.isTidy) && op.selectionSet.isTidy endsOutsideString

theorem Operation.headerChars_eq (style : Style) (op : Operation) :
    op.headerChars style = op.kind.keyword.toList ++ (nameChars op.name ++
      (variablesChars style op.variableDefinitions ++ (directivesChars style op.directives ++
        style.gap))) := by
  obtain ⟨kind, name, vs, directives, set⟩ := op
  cases name <;> simp [headerChars, nameChars, variablesChars]

theorem detached_variablesChars (vs : List VariableDefinition) :
    Detached fun style => variablesChars style vs :=
  fun style _ => endsRun_variablesChars style vs

theorem steady_variablesChars {vs : List VariableDefinition} (h : ∀ v ∈ vs, v.isTidy = true) :
    Steady fun style => variablesChars style vs := by
  have hitems : Steady fun style => separated style.itemSeparator (vs.map (·.chars style)) :=
    steady_items fun v hm => v.steady_chars (h v hm)
  simp only [variablesChars]
  split
  · exact .nil
  · exact .mark (by decide) (hitems.append (.mark (by decide) .nil) (.cons (by decide)))

theorem detached_nameChars (name : Option String) : Detached fun _ => nameChars name := by
  cases name with
  | none => exact .nil
  | some name => exact .cons (by decide)

theorem steady_nameChars {name : Option String} (h : ∀ n ∈ name, isName n.toList = true) :
    Steady fun _ => nameChars name := by
  cases name with
  | none => exact .nil
  | some name => exact steady_of_balanced (.plain (by decide) (balanced_name (h name rfl)))

theorem Operation.steady_chars {op : Operation} (h : op.isTidy = true) :
    Steady fun style => op.chars style := by
  simp only [isTidy, Bool.and_eq_true, Option.all_eq_true, List.all_eq_true] at h
  obtain ⟨⟨⟨hname, hvars⟩, hdirectives⟩, hset⟩ := h
  have hbraces := SelectionSet.steady_of_tidy.1 op.selectionSet hset
  simp only [chars]
  split
  · exact hbraces
  have hgap : Detached fun style => style.gap ++ op.selectionSet.chars style :=
    Style.detached_gap op.selectionSet.detached_chars
  have hrest := (steady_directivesChars hdirectives).append
    (.blank Style.ignored_gap hbraces) hgap
  have hdetached := (detached_directivesChars op.directives).append hgap
  have hafter := (steady_variablesChars hvars).append hrest hdetached
  have hdetached' := (detached_variablesChars op.variableDefinitions).append hdetached
  have hhead := (steady_nameChars hname).append hafter hdetached'
  have hh := (Steady.name (isName_keyword op.kind)).append hhead
    ((detached_nameChars op.name).append hdetached')
  simpa only [headerChars_eq, List.append_assoc] using hh

def Document.isTidy (d : Document) : Bool :=
  d.definitions.all (·.isTidy)

theorem Document.steady_chars {d : Document} (h : d.isTidy = true) :
    Steady fun style => d.chars style := by
  refine steady_separated (fun style rest => ?_) (fun style rest => ?_)
    fun op hm => op.steady_chars (List.all_eq_true.mp h op hm)
  · cases style with
    | pretty => exact .space (by decide) (ignored_space (by decide) rest)
    | minified => exact ignored_space (by decide) rest
  · cases style <;> exact endsRun_cons.mpr (by decide)

/-- Anything that is written. -/
inductive Phrase where
  | node (value : Node)
  | directive (value : Directive)
  | field (value : Field)
  | selectionSet (value : SelectionSet)

namespace Phrase

def chars (style : Style) : Phrase → List Char
  | node n => n.chars style
  | directive d => d.chars style
  | field f => f.chars style
  | selectionSet set => set.chars style

/-- Whether all names in a phrase are names, no string in it holds a quote, and no text that is kept in
it ends in a string. -/
def isTidy : Phrase → Bool
  | node (.atom a) => a.isTidy
  | node (.type t) => t.isTidy
  | node (.variableDefinition v) => v.isTidy
  | node (.operation op) => op.isTidy
  | node (.document d) => d.isTidy
  | directive d => d.isTidy
  | field f => f.isTidy endsOutsideString
  | selectionSet set => set.isTidy endsOutsideString

/-- Whatever is tidy is written with the same tokens in both styles. -/
theorem tokens_chars_pretty (p : Phrase) (h : p.isTidy = true) :
    tokens (p.chars .pretty) = tokens (p.chars .minified) := by
  have hsteady : Steady fun style => p.chars style := by
    cases p with
    | node n =>
      cases n with
      | atom a => exact a.steady_chars h
      | type t => exact steady_of_balanced (TypeRef.balanced_chars h)
      | variableDefinition v => exact v.steady_chars h
      | operation op => exact op.steady_chars h
      | document d => exact d.steady_chars h
    | directive d => exact d.steady_chars h
    | field f => exact SelectionSet.steady_of_tidy.2 f h
    | selectionSet set => exact SelectionSet.steady_of_tidy.1 set h
  exact hsteady.tokens_eq .pretty .minified

theorem tokens_chars_pretty_two_definitions :
    let infinity : Atom := .list [.float (.ofBits 0xFFF0000000000000), .enum "null"]
    let inner : Field := ⟨some "a", "b", [], [], some (.ofBody "c 1 #\x7d")⟩
    let first : Operation :=
      { name := some "A"
        variableDefinitions := [⟨"v", .nonNull (.nonNull (.named "T")), some infinity, []⟩]
        directives := [⟨"d", [("x", .string "#")]⟩]
        selectionSet := ⟨[inner], "\x7d-#"⟩ }
    let p : Phrase := .node (.document ⟨[first, { selectionSet := .ofBody "e" }]⟩)
    p.isTidy = true ∧ p.chars .pretty ≠ p.chars .minified ∧
      tokens (p.chars .pretty) = tokens (p.chars .minified) :=
  ⟨by decide, by decide, tokens_chars_pretty _ (by decide)⟩

end Phrase

end QueryDoc
