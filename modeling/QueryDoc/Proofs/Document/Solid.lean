import QueryDoc.Proofs.Document.RoundTrip
import QueryDoc.Proofs.Grammar.Suffix
import QueryDoc.Proofs.Text.Tight

/-! Documents that are read from a tight text are written as tight texts. The texts of strings and of
selection sets stand in the source as they are written, and everything else is written without any
blanks but single spaces between tokens. -/

namespace QueryDoc

open Text

theorem isBlank_eq_false {c : Char} (hlow : 0x21 ≤ c.toNat) (hhigh : c.toNat ≤ 0x7E) :
    isBlank c = false := by
  simp only [isBlank, Bool.or_eq_false_iff, Bool.and_eq_false_iff, decide_eq_false_iff_not,
    beq_eq_false_iff_ne]
  omega

theorem isBlank_of_isAlphanum {c : Char} (h : c.isAlphanum = true) : isBlank c = false := by
  have hh : ((decide (c.val ≥ 'A'.val ∧ c.val ≤ 'Z'.val) ||
      (decide (c.val ≥ 'a'.val) && decide (c.val ≤ 'z'.val))) || c.isDigit) = true := h
  simp only [Bool.or_eq_true, Bool.and_eq_true, decide_eq_true_eq] at hh
  rcases hh with (⟨hlow, hhigh⟩ | ⟨hlow, hhigh⟩) | hdigit
  · exact isBlank_eq_false ((by decide : 0x21 ≤ 'A'.toNat).trans (UInt32.le_iff_toNat_le.mp hlow))
      ((UInt32.le_iff_toNat_le.mp hhigh).trans (by decide : 'Z'.toNat ≤ 0x7E))
  · exact isBlank_eq_false ((by decide : 0x21 ≤ 'a'.toNat).trans (UInt32.le_iff_toNat_le.mp hlow))
      ((UInt32.le_iff_toNat_le.mp hhigh).trans (by decide : 'z'.toNat ≤ 0x7E))
  · obtain ⟨hlow, hhigh⟩ := Char.isDigit_iff_toNat.mp hdigit
    exact isBlank_eq_false ((by decide : 0x21 ≤ '0'.toNat).trans hlow)
      (hhigh.trans (by decide : '9'.toNat ≤ 0x7E))

theorem isBlank_of_isTokenContinue {c : Char} (h : isTokenContinue c = true) :
    isBlank c = false := by
  simp only [isTokenContinue, isNameContinue, isNumberContinue, Bool.or_eq_true, beq_iff_eq] at h
  rcases h with (h | rfl) | (((((h | rfl) | rfl) | rfl) | rfl) | rfl)
  · exact isBlank_of_isAlphanum h
  · decide
  · exact isBlank_of_isAlphanum (by simp [Char.isAlphanum, h])
  all_goals decide

theorem solid_name {name : List Char} (h : isName name = true) : Solid name := by
  obtain ⟨c, cs, rfl, -⟩ := exists_cons_of_isName h
  refine .of_not_blank (List.cons_ne_nil _ _) fun d hd => isBlank_of_isTokenContinue ?_
  simp [isTokenContinue, isNameContinue_of_isName h d hd]

theorem solid_number {c : Char} {cs : List Char} (hc : isNumberStart c = true)
    (hcs : ∀ d ∈ cs, isNumberContinue d = true) : Solid (c :: cs) := by
  have hall : ∀ d ∈ c :: cs, isNumberContinue d = true :=
    List.forall_mem_cons.mpr ⟨isNumberContinue_of_isNumberStart hc, hcs⟩
  refine .of_not_blank (List.cons_ne_nil _ _) fun d hd => isBlank_of_isTokenContinue ?_
  simp [isTokenContinue, hall d hd]

theorem solid_enclosed {a b : Char} {inside : List Char} (ha : isBlank a = false)
    (hb : isBlank b = false) (h : Tight inside) :
    Solid (a :: inside ++ [b]) := by
  simpa using (Solid.singleton ha).glue h (.singleton hb)

theorem solid_separated {separator : List Char} (hseparator : Tight separator) {text : List Char}
    {texts : List (List Char)} (h : ∀ t ∈ text :: texts, Solid t) :
    Solid (separated separator (text :: texts)) := by
  rw [separated_cons]
  induction texts generalizing text with
  | nil => simpa using h text List.mem_cons_self
  | cons next texts ih =>
    obtain ⟨htext, hrest⟩ := List.forall_mem_cons.mp h
    obtain ⟨hnext, htexts⟩ := List.forall_mem_cons.mp hrest
    have hglued := htext.glue hseparator hnext
    have hh := ih (List.forall_mem_cons.mpr ⟨hglued, htexts⟩)
    simpa using hh

theorem tight_separated {separator : List Char} (hseparator : Tight separator)
    {texts : List (List Char)} (h : ∀ t ∈ texts, Solid t) : Tight (separated separator texts) := by
  cases texts with
  | nil => exact tight_of_not_mem List.not_mem_nil
  | cons text texts => exact (solid_separated hseparator h).tight

theorem Style.tight_itemSeparator (style : Style) : Tight style.itemSeparator :=
  tight_of_not_mem (by cases style <;> decide)

theorem Style.tight_gap (style : Style) : Tight style.gap :=
  tight_of_not_mem (by cases style <;> decide)

theorem Style.tight_keySeparator (style : Style) : Tight style.keySeparator :=
  tight_of_not_mem (by cases style <;> decide)

theorem Style.tight_defaultSeparator (style : Style) : Tight style.defaultSeparator :=
  tight_of_not_mem (by cases style <;> decide)

variable {input rest : List Char}

theorem SpellsAtom.solid_chars (style : Style) {a : Atom} (h : SpellsAtom input a rest)
    (hinput : Tight input) : Solid (a.chars style) := by
  induction hn : a.nesting using Nat.strongRecOn generalizing input rest a with
  | ind n ih =>
    cases h with
    | number _ _ _ _ hnumber =>
      cases hnumber with
      | @int m =>
        obtain ⟨c, cs, htext, hc, hcs⟩ := Atom.intText_eq_cons m
        rw [Atom.chars_int, htext]
        exact solid_number hc hcs
      | @float x _ _ hfinite =>
        obtain ⟨c, cs, htext, hc, hcs⟩ := Decimal.finiteText_eq_cons Atom.floatFormat hfinite
        rw [Atom.chars_float, Atom.floatText_eq hfinite, htext]
        exact solid_number hc hcs
    | @string _ _ text hspelled _ =>
      have htext : text.toList <:+: input :=
        (List.prefix_append _ _).isInfix.trans hspelled.suffix_of_cons.isInfix
      exact solid_enclosed (by rfl) (by rfl) (hinput.mono htext)
    | boolTrue => exact solid_name (by decide : isName "true".toList = true)
    | boolFalse => exact solid_name (by decide : isName "false".toList = true)
    | null => exact solid_name (by decide : isName "null".toList = true)
    | enum hname => exact solid_name hname.isName
    | @list _ inner _ _ items hopen hitems _ =>
      refine solid_enclosed (by rfl) (by rfl) (tight_separated style.tight_itemSeparator ?_)
      rw [Atom.itemChars_eq_map, List.forall_mem_map]
      intro item hm
      obtain ⟨i, r, hi, hitem⟩ := hitems.exists_suffix (fun _ _ _ _ hb => hb.suffix) item hm
      have hoccurs := (hi.trans hopen.suffix_of_cons).isInfix
      exact ih _ (hn ▸ Atom.nesting_lt_of_mem hm) hitem (hinput.mono hoccurs) rfl
    | @object _ inner _ _ fields hopen hfields _ _ =>
      refine solid_enclosed (by rfl) (by rfl) (tight_separated style.tight_itemSeparator ?_)
      rw [Atom.fieldChars_eq_map, List.forall_mem_map]
      rintro ⟨key, value⟩ hm
      obtain ⟨hkey, i, r, hi, hvalue⟩ :=
        hfields.exists_suffix (fun _ _ _ _ _ hb => hb.suffix) _ hm
      have hoccurs := (hi.trans hopen.suffix_of_cons).isInfix
      have hsolid := ih _ (hn ▸ Atom.nesting_lt_of_mem_fields hm) hvalue (hinput.mono hoccurs) rfl
      rw [Atom.fieldText, List.append_assoc]
      exact (solid_name hkey).glue style.tight_keySeparator hsolid

theorem TypeRef.solid_chars {t : TypeRef} (h : t.isWellFormed = true) : Solid t.chars := by
  induction t with
  | named name => exact solid_name h
  | list inner ih => exact solid_enclosed (by rfl) (by rfl) (ih h).tight
  | nonNull inner ih =>
    simp only [isWellFormed, Bool.and_eq_true] at h
    exact (ih h.2).append (.singleton (by decide))

theorem SpellsVariable.solid_chars (style : Style) {v : VariableDefinition}
    (h : SpellsVariable input v rest) (hinput : Tight input) : Solid (v.chars style) := by
  cases h with
  | @mk start colon type default _ name t value hdollar hname hcolon ht hvalue _ =>
    have hdollar' : Solid ('$' :: name.toList) :=
      (Solid.singleton (by decide)).append (solid_name hname.isName)
    have htype := TypeRef.solid_chars ht.isWellFormed
    have hhead : Solid ('$' :: name.toList ++ style.keySeparator ++ t.chars) := by
      rw [List.append_assoc]
      exact hdollar'.glue style.tight_keySeparator htype
    cases hvalue with
    | absent => simpa [VariableDefinition.chars, directivesChars] using hhead
    | @given start' _ _ heq ha =>
      have hsuffix := heq.suffix_of_cons.trans (ht.suffix.trans (hcolon.suffix_of_cons.trans
        (hname.suffix.trans hdollar.suffix_of_cons)))
      have hvalue := ha.solid_chars style (hinput.mono hsuffix.isInfix)
      have hh := hhead.glue style.tight_defaultSeparator hvalue
      simpa [VariableDefinition.chars, directivesChars] using hh

theorem SpellsVariables.tight_chars (style : Style) {vs : List VariableDefinition}
    (h : SpellsVariables input vs rest) (hinput : Tight input) :
    variablesChars style vs = [] ∨ Solid (variablesChars style vs) := by
  cases h with
  | absent => exact .inl rfl
  | @given inner _ _ v vs hopen heach _ =>
    right
    refine solid_enclosed (by rfl) (by rfl) (tight_separated style.tight_itemSeparator ?_)
    rw [List.forall_mem_map]
    intro w hw
    obtain ⟨i, r, hi, hvariable⟩ := heach.exists_suffix (fun _ _ _ _ hv => hv.suffix) w hw
    exact hvariable.solid_chars style (hinput.mono (hi.trans hopen.suffix_of_cons).isInfix)

theorem SelectionSet.solid_chars (style : Style) {body : String}
    (htrim : trim body.toList = body.toList) (htight : Tight body.toList) :
    Solid ((SelectionSet.ofBody body).chars style) := by
  by_cases hbody : body = ""
  · subst hbody
    have hopen : Solid ['{'] := .singleton (by decide)
    exact hopen.append (.singleton (by decide))
  · have hempty : body.isEmpty = false := by simpa using hbody
    have hsolid := Solid.of_trim htrim (by simpa using hbody) htight
    have hpad : Tight (if endsInComment body.toList then ['\n'] else style.gap) := by
      split
      · exact tight_singleton '\n'
      · exact style.tight_gap
    have hopen := (Solid.singleton (c := '{') (by decide)).glue style.tight_gap hsolid
    have hh := hopen.glue hpad (.singleton (c := '}') (by decide))
    simpa [ofBody, SelectionSet.chars, Field.charsEach, hempty, separated_cons] using hh

theorem solid_header (style : Style) (kind : OperationKind) {name : Option String}
    {vs : List VariableDefinition} (hname : ∀ n ∈ name, isName n.toList = true)
    (hvs : variablesChars style vs = [] ∨ Solid (variablesChars style vs)) :
    Solid (kind.keyword.toList ++ nameChars name ++ variablesChars style vs) := by
  have hkeyword := solid_name (isName_keyword kind)
  have hhead : Solid (kind.keyword.toList ++ nameChars name) := by
    cases name with
    | none => simpa [nameChars] using hkeyword
    | some name => exact hkeyword.glue (tight_singleton ' ') (solid_name (hname name rfl))
  rcases hvs with hnil | hvs
  · rwa [hnil, List.append_nil]
  · exact hhead.append hvs

theorem Operation.solid_chars {style : Style} {op : Operation} (hdirectives : op.directives = [])
    (hheader : Solid (op.kind.keyword.toList ++ nameChars op.name ++
      variablesChars style op.variableDefinitions))
    (hset : Solid (op.selectionSet.chars style)) : Solid (op.chars style) := by
  by_cases hshort : op.isShorthand = true
  · rwa [chars, if_pos hshort]
  · have hh := hheader.glue style.tight_gap hset
    rw [chars_of_not_isShorthand style (by simpa using hshort) hdirectives]
    simpa using hh

theorem SpellsOperation.solid_chars (style : Style) {op : Operation}
    (h : SpellsOperation input op rest) (hinput : Tight input) : Solid (op.chars style) := by
  cases h with
  | @mk vars brace body _ kind name vs hheader hvariables hopen hbody =>
    have hsuffix : brace <:+ input := hvariables.suffix.trans hheader.suffix
    have hinside : trim body <:+: input := by
      obtain ⟨front, back, hcs, -, -⟩ := exists_blanks_trim body
      have htrim : trim body <:+: body := ⟨front, back, hcs.symm⟩
      have hbrace : body <:+: brace :=
        (List.prefix_append _ _).isInfix.trans hopen.suffix_of_cons.isInfix
      exact htrim.trans (hbrace.trans hsuffix.isInfix)
    have hset : Solid ((SelectionSet.ofBody (String.ofList (trim body))).chars style) :=
      SelectionSet.solid_chars style (by simp [trim_trim]) (by simpa using hinput.mono hinside)
    have hvs := hvariables.tight_chars style (hinput.mono hheader.suffix.isInfix)
    exact Operation.solid_chars rfl (solid_header style kind hheader.isName hvs) hset

theorem Document.solid_chars (style : Style) {source : List Char} {d : Document}
    (h : SpellsDocument source d) (hsource : Tight source) : Solid (d.chars style) := by
  cases h with
  | mk hop _ => simpa [chars, separated_cons] using hop.solid_chars style hsource

end QueryDoc
