import QueryDoc.Proofs.Atom.Reading
import QueryDoc.Proofs.Atom.WellFormed
import QueryDoc.Proofs.Decimal.Layout
import QueryDoc.Proofs.Grammar.Separated

/-! A value is read back from its text, in both styles, exactly if it is well formed and nests no
deeper than allowed. -/

namespace QueryDoc

def SpellsField (value : List Char → Atom → List Char → Prop) (input : List Char)
    (field : String × Atom) (rest : List Char) : Prop :=
  ∃ colon start, SpellsName input field.1 colon ∧ Ignored colon (':' :: start) ∧
    value start field.2 rest

theorem SpellsFields.of_each {value : List Char → Atom → List Char → Prop} {input rest : List Char}
    {fields : List (String × Atom)} (h : SpellsEach (SpellsField value) input fields rest) :
    SpellsFields value input fields rest := by
  induction h with
  | nil => exact .nil _
  | cons hfield _ ih =>
    obtain ⟨colon, start, hkey, hcolon, ha⟩ := hfield
    exact .cons hkey hcolon ha ih

namespace Atom

open ReadM

theorem intText_eq_cons (n : Int64) :
    ∃ c cs, intText n = c :: cs ∧ isNumberStart c = true ∧ ∀ d ∈ cs, isNumberContinue d = true := by
  have hdigits : ∀ c ∈ Nat.toDigits 10 n.toInt.natAbs, c.isDigit = true :=
    Decimal.isDigit_of_mem_toDigits
  by_cases hn : n.toInt < 0
  · refine ⟨'-', _, by rw [intText, if_pos hn]; rfl, by decide, fun d hd => ?_⟩
    exact Decimal.isNumberContinue_of_isDigit (hdigits d hd)
  · obtain ⟨c, cs, hcs⟩ := List.exists_cons_of_ne_nil
      (Nat.toDigits_ne_nil : Nat.toDigits 10 n.toInt.natAbs ≠ [])
    rw [hcs] at hdigits
    refine ⟨c, cs, by rw [intText, if_neg hn, hcs]; rfl, ?_, fun d hd => ?_⟩
    · simp [isNumberStart, hdigits c List.mem_cons_self]
    · exact Decimal.isNumberContinue_of_isDigit (hdigits d (List.mem_cons_of_mem _ hd))

theorem floatText_eq {x : Binary64} (hx : x.isFinite = true) :
    floatText x = Decimal.finiteText floatFormat x := by
  have hlt := Decimal.magnitude_lt_infinite hx
  have hnan : x.isNaN = false := by
    simp only [Binary64.isNaN, decide_eq_false_iff_not]
    omega
  simp [floatText, hnan, hx]

theorem spells_int (n : Int64) {rest : List Char} (hrest : EndsRun isTokenContinue rest) :
    SpellsAtom (intText n ++ rest) (.int n) rest := by
  obtain ⟨c, cs, htext, hc, hcs⟩ := intText_eq_cons n
  have hspells : SpellsNumber (c :: cs) (.int n) := .int (htext ▸ Decimal.int64?_intText n)
  rw [htext]
  exact .number (.done _) hc hcs hrest.isNumberContinue hspells

theorem spells_float {x : Binary64} (hx : x.isFinite = true) {rest : List Char}
    (hrest : EndsRun isTokenContinue rest) : SpellsAtom (floatText x ++ rest) (.float x) rest := by
  obtain ⟨c, cs, htext, hc, hcs⟩ := Decimal.finiteText_eq_cons floatFormat hx
  have hspells : SpellsNumber (c :: cs) (.float x) :=
    .float (htext ▸ Decimal.int64?_finiteText floatFormat hx)
      (htext ▸ Decimal.float?_finiteText floatFormat hx) hx
  rw [floatText_eq hx, htext]
  exact .number (.done _) hc hcs hrest.isNumberContinue hspells

theorem spells_name {name : String} (hname : isName name.toList = true) {rest : List Char}
    (hrest : EndsRun isTokenContinue rest) : SpellsName (name.toList ++ rest) name rest :=
  ⟨hname, hrest.isNameContinue, .done _⟩

theorem itemChars_eq_map (style : Style) (items : List Atom) :
    itemChars style items = items.map (chars style) := by
  induction items with
  | nil => rfl
  | cons item items ih => rw [itemChars, ih, List.map_cons]

def fieldText (style : Style) (field : String × Atom) : List Char :=
  field.1.toList ++ style.keySeparator ++ field.2.chars style

theorem fieldChars_eq_map (style : Style) (fields : List (String × Atom)) :
    fieldChars style fields = fields.map (fieldText style) := by
  induction fields with
  | nil => rfl
  | cons field fields ih => rw [fieldChars, ih, List.map_cons, fieldText]

section Chars

variable (style : Style)

theorem chars_null : chars style null = "null".toList := by
  rw [chars.eq_def]

theorem chars_true : chars style (bool true) = "true".toList := by
  rw [chars.eq_def]

theorem chars_false : chars style (bool false) = "false".toList := by
  rw [chars.eq_def]

theorem chars_int (n : Int64) : chars style (int n) = intText n :=
  rfl

theorem chars_float (x : Binary64) : chars style (float x) = floatText x :=
  rfl

theorem chars_string (text : String) :
    chars style (string text) = '"' :: (text.toList ++ ['"']) :=
  rfl

theorem chars_list (items : List Atom) :
    chars style (list items) =
      '[' :: (separated style.itemSeparator (items.map (chars style)) ++ [']']) := by
  rw [← itemChars_eq_map]
  rfl

theorem chars_object (fields : List (String × Atom)) :
    chars style (object fields) =
      '{' :: (separated style.itemSeparator (fields.map (fieldText style)) ++ ['}']) := by
  rw [← fieldChars_eq_map]
  rfl

end Chars

theorem isName_of_isEnumName {name : List Char} (h : isEnumName name = true) :
    isName name = true := by
  cases name with
  | nil => cases h
  | cons c cs =>
    simp only [isEnumName, Bool.and_eq_true] at h
    exact h.1

theorem spells_field (style : Style) {field : String × Atom} {rest : List Char}
    (hkey : isName field.1.toList = true)
    (hvalue : SpellsAtom (field.2.chars style ++ rest) field.2 rest) :
    SpellsField SpellsAtom (fieldText style field ++ rest) field rest := by
  refine ⟨style.keySeparator ++ (field.2.chars style ++ rest),
    style.gap ++ (field.2.chars style ++ rest), ?_, ?_, hvalue.prepend (style.ignored_gap _)⟩
  · rw [fieldText, List.append_assoc, List.append_assoc]
    refine spells_name hkey ?_
    rw [style.keySeparator_eq]
    exact endsRun_cons.mpr (by decide)
  · rw [style.keySeparator_eq]
    exact .done _

theorem spells_chars (style : Style) {a : Atom} (h : a.isWellFormed = true) {rest : List Char}
    (hrest : EndsRun isTokenContinue rest) : SpellsAtom (a.chars style ++ rest) a rest := by
  induction hn : a.nesting using Nat.strongRecOn generalizing a rest with
  | ind n ih =>
    cases a with
    | null =>
      rw [chars_null]
      exact .null (spells_name (by decide) hrest)
    | bool value =>
      cases value with
      | true =>
        rw [chars_true]
        exact .boolTrue (spells_name (by decide) hrest)
      | false =>
        rw [chars_false]
        exact .boolFalse (spells_name (by decide) hrest)
    | int n => exact spells_int n hrest
    | float x => exact spells_float h hrest
    | string text =>
      have htext : '"' ∉ text.toList := by simpa [isWellFormed] using h
      rw [chars_string, List.cons_append, List.append_assoc]
      exact .string (.done _) htext
    | enum name => exact .enum (spells_name (isName_of_isEnumName h) hrest) h
    | list items =>
      have hclose : EndsRun isTokenContinue (']' :: rest) := endsRun_cons.mpr (by decide)
      have heach : SpellsEach SpellsAtom
          (separated style.itemSeparator (items.map (chars style)) ++ ']' :: rest) items
          (']' :: rest) := by
        refine .of_separated (fun _ _ _ _ hm h => h.prepend hm) style.ignored_itemSeparator
          (fun _ _ _ => style.endsRun_itemSeparator _) (fun item hm r hr => ?_) hclose
        exact ih item.nesting (hn ▸ nesting_lt_of_mem hm) (itemsWellFormed_iff.mp h item hm) hr rfl
      rw [chars_list, List.cons_append, List.append_assoc]
      exact .list (.done _) heach (.done _)
    | object fields =>
      obtain ⟨hkeys, hfields⟩ : (fields.map Prod.fst).Nodup ∧ fieldsWellFormed fields = true := by
        simpa [isWellFormed] using h
      have hclose : EndsRun isTokenContinue ('}' :: rest) := endsRun_cons.mpr (by decide)
      have heach : SpellsEach (SpellsField SpellsAtom)
          (separated style.itemSeparator (fields.map (fieldText style)) ++ '}' :: rest) fields
          ('}' :: rest) := by
        refine .of_separated ?_ style.ignored_itemSeparator
          (fun _ _ _ => style.endsRun_itemSeparator _) (fun field hm r hr => ?_) hclose
        · rintro i m field r hm ⟨colon, start, hkey, hcolon, ha⟩
          exact ⟨colon, start, hkey.prepend hm, hcolon, ha⟩
        · obtain ⟨hkey, hvalue⟩ := fieldsWellFormed_iff.mp hfields field hm
          have hlt := hn ▸ nesting_lt_of_mem_fields hm
          exact spells_field style hkey (ih field.2.nesting hlt hvalue hr rfl)
      rw [chars_object, List.cons_append, List.append_assoc]
      exact .object (.done _) (.of_each heach) hkeys (.done _)

theorem parse_ok_iff {source : List Char} {options : ReadOptions} {a : Atom} :
    parse source options = .ok a ↔
      ∃ rest, SpellsAtom source a rest ∧ Ignored rest [] ∧ a.nesting ≤ options.depth := by
  have hsound : Sound (read options.depth) _ := readWithin_sound _ _
  rw [parse, Token.onText_finish_ok_iff hsound
    fun rest h _ => readWithin_reaches h.1 h.2 (by rw [Scanner.rest_start])]
  exact exists_congr fun rest => and_right_comm.trans and_assoc

/-- A value reads back from its text exactly if it is well formed and not too deep. -/
theorem parse_chars_eq_ok_iff (a : Atom) (style : Style) :
    parse (a.chars style) = .ok a ↔ a.isWellFormed = true ∧ a.nesting ≤ 64 := by
  rw [parse_ok_iff]
  constructor
  · rintro ⟨rest, hspells, -, hlevels⟩
    exact ⟨hspells.isWellFormed, hlevels⟩
  · rintro ⟨hwell, hlevels⟩
    have hspells := spells_chars style hwell (EndsRun.nil _)
    rw [List.append_nil] at hspells
    exact ⟨[], hspells, .done [], hlevels⟩

end Atom

end QueryDoc
