import QueryDoc.Proofs.Operation.Reading

/-! What a phrase leaves of a text is the end of that text, so whatever is spelled inside a phrase
stands somewhere in it. -/

namespace QueryDoc

variable {α : Type} {item : List Char → α → List Char → Prop} {input rest : List Char}

theorem SpellsEach.suffix {as : List α} (h : SpellsEach item input as rest)
    (hitem : ∀ ⦃i a r⦄, a ∈ as → item i a r → r <:+ i) : rest <:+ input := by
  induction h with
  | nil => exact List.suffix_rfl
  | cons ha _ ih =>
    exact (ih fun _ _ _ hm => hitem (List.mem_cons_of_mem _ hm)).trans (hitem List.mem_cons_self ha)

/-- Each phrase of a row is spelled somewhere in the text of the row. -/
theorem SpellsEach.exists_suffix {as : List α} (h : SpellsEach item input as rest)
    (hitem : ∀ ⦃i a r⦄, a ∈ as → item i a r → r <:+ i) :
    ∀ a ∈ as, ∃ i r, i <:+ input ∧ item i a r := by
  induction h with
  | nil => simp
  | @cons input mid _ a as ha _ ih =>
    have hmid := hitem List.mem_cons_self ha
    refine List.forall_mem_cons.mpr ⟨⟨input, mid, List.suffix_rfl, ha⟩, fun b hb => ?_⟩
    obtain ⟨i, r, hi, hb⟩ := ih (fun _ _ _ hm => hitem (List.mem_cons_of_mem _ hm)) b hb
    exact ⟨i, r, hi.trans hmid, hb⟩

theorem SpellsName.suffix {name : String} (h : SpellsName input name rest) : rest <:+ input :=
  (List.suffix_append _ _).trans h.spelled.suffix

theorem Ignored.suffix_of_cons {c : Char} (h : Ignored input (c :: rest)) : rest <:+ input :=
  (List.suffix_cons c rest).trans h.suffix

theorem SpellsFields.suffix {value : List Char → Atom → List Char → Prop}
    {fields : List (String × Atom)} (h : SpellsFields value input fields rest)
    (hvalue : ∀ ⦃i a r⦄ ⦃key : String⦄, (key, a) ∈ fields → value i a r → r <:+ i) :
    rest <:+ input := by
  induction h with
  | nil => exact List.suffix_rfl
  | cons hkey hcolon ha _ ih =>
    have hrest := ih fun _ _ _ _ hm => hvalue (List.mem_cons_of_mem _ hm)
    have hmid := hvalue List.mem_cons_self ha
    exact ((hrest.trans hmid).trans hcolon.suffix_of_cons).trans hkey.suffix

theorem SpellsFields.exists_suffix {value : List Char → Atom → List Char → Prop}
    {fields : List (String × Atom)} (h : SpellsFields value input fields rest)
    (hvalue : ∀ ⦃i a r⦄ ⦃key : String⦄, (key, a) ∈ fields → value i a r → r <:+ i) :
    ∀ field ∈ fields, isName field.1.toList = true ∧ ∃ i r, i <:+ input ∧ value i field.2 r := by
  induction h with
  | nil => simp
  | @cons input colon start mid _ key a fields hkey hcolon ha _ ih =>
    have hstart := hcolon.suffix_of_cons.trans hkey.suffix
    have hmid := hvalue List.mem_cons_self ha
    refine List.forall_mem_cons.mpr ⟨⟨hkey.isName, start, mid, hstart, ha⟩, fun field hm => ?_⟩
    obtain ⟨hname, i, r, hi, hb⟩ :=
      ih (fun _ _ _ _ hm => hvalue (List.mem_cons_of_mem _ hm)) field hm
    exact ⟨hname, i, r, (hi.trans hmid).trans hstart, hb⟩

theorem SpellsAtom.suffix {a : Atom} (h : SpellsAtom input a rest) : rest <:+ input := by
  induction hn : a.nesting using Nat.strongRecOn generalizing input rest a with
  | ind n ih =>
    cases h with
    | number hspelled => exact (List.suffix_append _ _).trans hspelled.suffix_of_cons
    | string hspelled =>
      have hquote := (List.suffix_append _ _).trans hspelled.suffix_of_cons
      exact (List.suffix_cons _ _).trans hquote
    | boolTrue hname => exact hname.suffix
    | boolFalse hname => exact hname.suffix
    | null hname => exact hname.suffix
    | enum hname => exact hname.suffix
    | @list _ _ _ _ items hopen hitems hclose =>
      have hrow := hitems.suffix fun i b r hm hb => ih _ (hn ▸ Atom.nesting_lt_of_mem hm) hb rfl
      exact (hclose.suffix_of_cons.trans hrow).trans hopen.suffix_of_cons
    | @object _ _ _ _ fields hopen hfields _ hclose =>
      have hrow := hfields.suffix fun i b r key hm hb =>
        ih _ (hn ▸ Atom.nesting_lt_of_mem_fields hm) hb rfl
      exact (hclose.suffix_of_cons.trans hrow).trans hopen.suffix_of_cons

theorem SpellsType.suffix {t : TypeRef} (h : SpellsType input t rest) : rest <:+ input := by
  induction h with
  | named hname => exact hname.suffix
  | list hopen _ hclose ih =>
    exact (hclose.suffix_of_cons.trans ih).trans hopen.suffix_of_cons
  | nonNull _ _ hbang ih => exact hbang.suffix_of_cons.trans ih

theorem SpellsDefault.suffix {value : Option Atom} (h : SpellsDefault input value rest) :
    rest <:+ input := by
  cases h with
  | absent => exact List.suffix_rfl
  | given heq ha => exact ha.suffix.trans heq.suffix_of_cons

theorem SpellsVariable.suffix {v : VariableDefinition} (h : SpellsVariable input v rest) :
    rest <:+ input := by
  cases h with
  | mk hdollar hname hcolon ht hvalue _ =>
    have hcolon' := hcolon.suffix_of_cons.trans (hname.suffix.trans hdollar.suffix_of_cons)
    exact (hvalue.suffix.trans ht.suffix).trans hcolon'

theorem SpellsHeader.suffix {kind : OperationKind} {name : Option String}
    (h : SpellsHeader input kind name rest) : rest <:+ input := by
  cases h with
  | absent => exact List.suffix_rfl
  | keyword hkeyword => exact hkeyword.suffix
  | named hkeyword hname => exact hname.suffix.trans hkeyword.suffix
  | bareName hname => exact hname.suffix

theorem SpellsVariables.suffix {vs : List VariableDefinition} (h : SpellsVariables input vs rest) :
    rest <:+ input := by
  cases h with
  | absent => exact List.suffix_rfl
  | given hopen heach hclose =>
    have hrow := heach.suffix fun _ _ _ _ hv => hv.suffix
    exact (hclose.suffix_of_cons.trans hrow).trans hopen.suffix_of_cons

end QueryDoc
