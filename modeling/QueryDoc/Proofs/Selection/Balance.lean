import QueryDoc.Proofs.Atom.RoundTrip
import QueryDoc.Proofs.Selection.RoundTrip
import QueryDoc.Proofs.Selection.Tidy

/-! A tidy selection set is written with balanced braces at all depths. No text that is kept in it can
swallow a brace after it: where one may end in a comment, a line feed stands before the brace. -/

namespace QueryDoc

open BodyScan

theorem Balanced.append {cs ds : List Char} (h : Balanced cs) (h' : Balanced ds) :
    Balanced (cs ++ ds) := by
  rw [balanced_iff_run] at h h' ⊢
  rw [run_append, h, Option.bind_some, h']

theorem balanced_of_plain {cs : List Char} (h : ∀ c ∈ cs, c ∉ ['{', '}', '"', '#']) :
    Balanced cs := by
  induction cs with
  | nil => exact .nil
  | cons c cs ih =>
    obtain ⟨hc, hcs⟩ := List.forall_mem_cons.mp h
    exact .plain hc (ih hcs)

theorem balanced_flatMap {α : Type} {write : α → List Char} {as : List α}
    (h : ∀ a ∈ as, Balanced (write a)) : Balanced (as.flatMap write) := by
  induction as with
  | nil => exact .nil
  | cons a as ih =>
    obtain ⟨ha, has⟩ := List.forall_mem_cons.mp h
    exact ha.append (ih has)

theorem balanced_separated {separator : List Char} (hseparator : Balanced separator)
    {texts : List (List Char)} (h : ∀ text ∈ texts, Balanced text) :
    Balanced (separated separator texts) := by
  cases texts with
  | nil => exact .nil
  | cons text texts =>
    obtain ⟨htext, htexts⟩ := List.forall_mem_cons.mp h
    rw [separated_cons]
    exact htext.append (balanced_flatMap fun next hm => hseparator.append (htexts next hm))

theorem not_mem_of_isTokenContinue {c : Char} (hc : isTokenContinue c = true) :
    c ∉ ['{', '}', '"', '#'] := by
  simp only [List.mem_cons, List.not_mem_nil, or_false, not_or]
  refine ⟨?_, ?_, ?_, ?_⟩ <;>
  · rintro rfl
    exact absurd hc (by decide)

theorem balanced_name {name : List Char} (h : isName name = true) : Balanced name := by
  refine balanced_of_plain fun c hc => not_mem_of_isTokenContinue ?_
  simp [isTokenContinue, isNameContinue_of_isName h c hc]

theorem balanced_number {c : Char} {cs : List Char} (hc : isNumberStart c = true)
    (hcs : ∀ d ∈ cs, isNumberContinue d = true) : Balanced (c :: cs) := by
  have hall : ∀ d ∈ c :: cs, isNumberContinue d = true :=
    List.forall_mem_cons.mpr ⟨isNumberContinue_of_isNumberStart hc, hcs⟩
  refine balanced_of_plain fun d hd => not_mem_of_isTokenContinue ?_
  simp [isTokenContinue, hall d hd]

section Style

variable (style : Style)

theorem Style.balanced_gap : Balanced style.gap := by
  cases style with
  | pretty => exact .plain (by decide) .nil
  | minified => exact .nil

theorem Style.balanced_itemSeparator : Balanced style.itemSeparator := by
  cases style with
  | pretty => exact .plain (by decide) (.plain (by decide) .nil)
  | minified => exact .plain (by decide) .nil

theorem Style.balanced_keySeparator : Balanced style.keySeparator := by
  rw [keySeparator_eq]
  exact .plain (by decide) style.balanced_gap

theorem Atom.balanced_floatText (x : Binary64) : Balanced (floatText x) := by
  by_cases hx : x.isFinite = true
  · obtain ⟨c, cs, htext, hc, hcs⟩ := Decimal.finiteText_eq_cons floatFormat hx
    rw [floatText_eq hx, htext]
    exact balanced_number hc hcs
  · rw [floatText, if_neg hx]
    split
    · exact balanced_name (by decide)
    split
    · exact .plain (by decide) (balanced_name (by decide))
    · exact balanced_name (by decide)

theorem Atom.balanced_fieldsChars {fields : List (String × Atom)}
    (h : ∀ field ∈ fields, isName field.1.toList = true ∧ Balanced (field.2.chars style)) :
    Balanced (fieldsChars style fields) := by
  rw [fieldsChars, fieldChars_eq_map]
  refine balanced_separated style.balanced_itemSeparator ?_
  rw [List.forall_mem_map]
  intro field hm
  obtain ⟨hkey, hvalue⟩ := h field hm
  exact ((balanced_name hkey).append style.balanced_keySeparator).append hvalue

theorem Atom.balanced_chars {a : Atom} (h : a.isTidy = true) : Balanced (a.chars style) := by
  induction hn : a.nesting using Nat.strongRecOn generalizing a with
  | ind n ih =>
    cases a with
    | null => exact balanced_name (by decide : isName "null".toList = true)
    | bool value =>
      cases value with
      | true => exact balanced_name (by decide : isName "true".toList = true)
      | false => exact balanced_name (by decide : isName "false".toList = true)
    | int n =>
      obtain ⟨c, cs, htext, hc, hcs⟩ := intText_eq_cons n
      rw [chars_int, htext]
      exact balanced_number hc hcs
    | float x => exact balanced_floatText x
    | string text => exact .string (by simpa [isTidy] using h) .nil
    | enum name => exact balanced_name h
    | list items =>
      have hitems : ∀ text ∈ items.map (chars style), Balanced text := by
        rw [List.forall_mem_map]
        exact fun item hm => ih _ (hn ▸ nesting_lt_of_mem hm) (itemsTidy_iff.mp h item hm) rfl
      have hclose : Balanced [']'] := .plain (by decide) .nil
      rw [chars_list]
      exact .plain (by decide) ((balanced_separated style.balanced_itemSeparator hitems).append hclose)
    | object fields =>
      refine .group (balanced_fieldsChars style ?_) .nil
      rintro ⟨key, value⟩ hm
      obtain ⟨hkey, hvalue⟩ := fieldsTidy_iff.mp h _ hm
      exact ⟨hkey, ih _ (hn ▸ nesting_lt_of_mem_fields hm) hvalue rfl⟩

theorem balanced_argumentsChars {arguments : List (String × Atom)}
    (h : Atom.fieldsTidy arguments = true) : Balanced (argumentsChars style arguments) := by
  have hfields : Balanced (Atom.fieldsChars style arguments) := by
    refine Atom.balanced_fieldsChars style fun field hm => ?_
    obtain ⟨hkey, hvalue⟩ := Atom.fieldsTidy_iff.mp h field hm
    exact ⟨hkey, Atom.balanced_chars style hvalue⟩
  have hclose : Balanced [')'] := .plain (by decide) .nil
  unfold argumentsChars
  split
  · exact .nil
  · exact .plain (by decide) (hfields.append hclose)

theorem balanced_directivesChars {directives : List Directive}
    (h : ∀ d ∈ directives, d.isTidy = true) : Balanced (directivesChars style directives) := by
  refine balanced_flatMap fun d hm => ?_
  obtain ⟨hname, harguments⟩ := Bool.and_eq_true_iff.mp (h d hm)
  have hchars : Balanced (d.chars style) :=
    .plain (by decide) ((balanced_name hname).append (balanced_argumentsChars style harguments))
  exact .plain (by decide) hchars

theorem Field.charsEach_eq_map (fields : List Field) :
    Field.charsEach style fields = fields.map (chars style) := by
  induction fields with
  | nil => rfl
  | cons field fields ih => rw [charsEach, ih, List.map_cons]

theorem Field.chars_eq (field : Field) :
    field.chars style = field.aliasName.elim [] (·.toList ++ style.keySeparator) ++
      field.name.toList ++ argumentsChars style field.arguments ++
      directivesChars style field.directives ++
      field.selectionSet.elim [] (style.gap ++ ·.chars style) := by
  obtain ⟨aliasName, name, arguments, directives, selectionSet⟩ := field
  cases aliasName <;> cases selectionSet <;> rfl

theorem separated_concat (separator : List Char) (texts : List (List Char)) (last : List Char) :
    separated separator (texts ++ [last]) = texts.flatMap (· ++ separator) ++ last := by
  induction texts with
  | nil => simp [separated_cons]
  | cons text texts ih =>
    rw [List.cons_append, separated_cons, List.flatMap_cons, List.append_assoc, ← ih]
    cases texts <;> simp [separated_cons]

namespace SelectionSet

/-- The fields of a selection set, with a space after each one that something follows. -/
def fieldsChars (set : SelectionSet) : List Char :=
  let texts := set.fields.map (·.chars style)
  if set.body.isEmpty then separated [' '] texts else texts.flatMap (· ++ [' '])

/-- What stands between the braces of a selection set. -/
def insideChars (set : SelectionSet) : List Char :=
  if set.isEmpty then []
  else
    style.gap ++ (set.fieldsChars style ++
      (set.body.toList ++ bodyPadding style set.body.toList))

theorem chars_eq (set : SelectionSet) :
    set.chars style = '{' :: (set.insideChars style ++ ['}']) := by
  obtain ⟨fields, body⟩ := set
  rw [chars, insideChars, isEmpty, Field.charsEach_eq_map]
  split
  · rfl
  · by_cases hbody : body = ""
    · simp [fieldsChars, bodyPadding, hbody]
    · simp [fieldsChars, bodyPadding, hbody, separated_concat]

end SelectionSet

end Style

/-- Whether a text closes all braces that it opens and no others, and does not end in a string. -/
def keepsBalance (body : List Char) : Bool :=
  match run ⟨.code, 1⟩ body with
  | some ⟨place, 1⟩ => place != .string
  | _ => false

theorem keepsBalance_iff {body : List Char} :
    keepsBalance body = true ↔
      ∃ place, place ≠ .string ∧ run ⟨.code, 1⟩ body = some ⟨place, 1⟩ := by
  unfold keepsBalance
  split
  · next place hrun => simp [hrun]
  · next hrun =>
    simp only [Bool.false_eq_true, false_iff]
    rintro ⟨place, -, h⟩
    exact hrun place h

theorem SelectionSet.balanced_fieldsChars (style : Style) {set : SelectionSet}
    (h : ∀ field ∈ set.fields, Balanced (field.chars style)) : Balanced (set.fieldsChars style) := by
  have hspace : Balanced [' '] := .plain (by decide) .nil
  have htexts : ∀ text ∈ set.fields.map (·.chars style), Balanced text := List.forall_mem_map.mpr h
  unfold fieldsChars
  split
  · exact balanced_separated hspace htexts
  · exact balanced_flatMap fun text hm => (htexts text hm).append hspace

theorem SelectionSet.balanced_insideChars (style : Style) {set : SelectionSet}
    (hfields : ∀ field ∈ set.fields, Balanced (field.chars style))
    (hbody : keepsBalance set.body.toList = true) : Balanced (set.insideChars style) := by
  obtain ⟨place, hplace, hrun⟩ := keepsBalance_iff.mp hbody
  unfold insideChars
  split
  · exact .nil
  · exact style.balanced_gap.append
      ((balanced_fieldsChars style hfields).append (balanced_padded style hplace hrun))

theorem Field.balanced_chars (style : Style) {field : Field} (h : field.TidyParts)
    (hset : ∀ set ∈ field.selectionSet, Balanced (set.insideChars style)) :
    Balanced (field.chars style) := by
  have hlabel : Balanced (field.aliasName.elim [] (·.toList ++ style.keySeparator)) := by
    cases hl : field.aliasName with
    | none => exact .nil
    | some label => exact (balanced_name (h.label label hl)).append style.balanced_keySeparator
  have hbraces : Balanced (field.selectionSet.elim [] (style.gap ++ ·.chars style)) := by
    cases hs : field.selectionSet with
    | none => exact .nil
    | some set =>
      have hgroup : Balanced (set.chars style) := set.chars_eq style ▸ .group (hset set hs) .nil
      exact style.balanced_gap.append hgroup
  rw [chars_eq]
  exact (((hlabel.append (balanced_name h.name)).append
    (balanced_argumentsChars style h.arguments)).append
      (balanced_directivesChars style h.directives)).append hbraces

/-- Whatever is written between the braces of a tidy selection set is balanced. -/
theorem SelectionSet.balanced_of_tidy (style : Style) :
    (∀ set : SelectionSet, set.isTidy keepsBalance = true → Balanced (set.insideChars style)) ∧
      ∀ field : Field, field.isTidy keepsBalance = true → Balanced (field.chars style) := by
  refine SelectionSet.induction (fun field ih h => ?_) fun fields body ih h => ?_
  · obtain ⟨hparts, hset⟩ := Field.isTidy_iff.mp h
    exact field.balanced_chars style hparts fun set hm => ih set hm (hset set hm)
  · obtain ⟨hfields, hbody⟩ := SelectionSet.isTidy_iff.mp h
    exact balanced_insideChars style (fun field hm => ih field hm (hfields field hm)) hbody

end QueryDoc
