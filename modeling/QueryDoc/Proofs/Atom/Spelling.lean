import QueryDoc.Proofs.Nesting
import QueryDoc.Proofs.Reading.Loop

/-! What the grammar says of values at once: how they begin, that ignored input may stand before
them, and that they leave less than there was. -/

namespace QueryDoc

theorem SpellsFields.prepend {value : List Char → Atom → List Char → Prop}
    {input mid rest : List Char} {fields : List (String × Atom)}
    (h : SpellsFields value mid fields rest) (hm : Ignored input mid) :
    ∃ rest', SpellsFields value input fields rest' ∧ Ignored rest' rest := by
  cases h with
  | nil => exact ⟨input, .nil input, hm⟩
  | cons hkey hcolon ha hfields =>
    exact ⟨rest, .cons (hkey.prepend hm) hcolon ha hfields, .done rest⟩

theorem spellsFields_and_iff {value : List Char → Atom → List Char → Prop} {p : Atom → Prop}
    {input rest : List Char} {fields : List (String × Atom)} :
    SpellsFields (fun i a r => value i a r ∧ p a) input fields rest ↔
      SpellsFields value input fields rest ∧ ∀ field ∈ fields, p field.2 := by
  constructor
  · intro h
    induction h with
    | nil => exact ⟨.nil _, by simp⟩
    | cons hkey hcolon ha _ ih =>
      exact ⟨.cons hkey hcolon ha.1 ih.1, List.forall_mem_cons.mpr ⟨ha.2, ih.2⟩⟩
  · rintro ⟨h, hp⟩
    induction h with
    | nil => exact .nil _
    | cons hkey hcolon ha _ ih =>
      have hh := List.forall_mem_cons.mp hp
      exact .cons hkey hcolon ⟨ha, hh.1⟩ (ih hh.2)

theorem SpellsName.length_lt {input rest : List Char} {name : String}
    (h : SpellsName input name rest) : rest.length < (significant input).length := by
  obtain ⟨c, ds, hname, -⟩ := exists_cons_of_isName h.isName
  simp only [h.significant_eq, hname, List.cons_append, List.length_cons, List.length_append]
  omega

/-- What stands behind the colon after a name is shorter than the text that begins with the name. -/
theorem SpellsName.length_lt_of_colon {input colon start : List Char} {name : String}
    (h : SpellsName input name colon) (hcolon : Ignored colon (':' :: start)) :
    start.length < (significant input).length := by
  have hle := hcolon.suffix.length_le
  rw [List.length_cons] at hle
  exact hle.trans h.length_lt.le

theorem SpellsFields.length_le {value : List Char → Atom → List Char → Prop}
    {input rest : List Char} {fields : List (String × Atom)}
    (h : SpellsFields value input fields rest)
    (hvalue : ∀ ⦃i a r⦄ ⦃key : String⦄, (key, a) ∈ fields → value i a r → r.length ≤ i.length) :
    rest.length ≤ input.length := by
  induction h with
  | nil => exact Nat.le_refl _
  | @cons input colon start mid rest key a fields hkey hcolon ha _ ih =>
    have hstart := hkey.length_lt_of_colon hcolon
    have hinput := (ignored_significant input).suffix.length_le
    have hmid := hvalue List.mem_cons_self ha
    have hrest := ih fun _ _ _ _ hm => hvalue (List.mem_cons_of_mem _ hm)
    omega

theorem le_toNat_of_isAlpha {c : Char} (h : c.isAlpha = true) : 'A'.toNat ≤ c.toNat := by
  have hh : (decide (c.val ≥ 'A'.val ∧ c.val ≤ 'Z'.val) ||
      (decide (c.val ≥ 'a'.val) && decide (c.val ≤ 'z'.val))) = true := h
  simp only [Bool.or_eq_true, Bool.and_eq_true, decide_eq_true_eq] at hh
  rcases hh with hh | hh
  · exact UInt32.le_iff_toNat_le.mp hh.1
  · have hle : 'A'.toNat ≤ 'a'.toNat := by decide
    exact hle.trans (UInt32.le_iff_toNat_le.mp hh.1)

theorem isNumberContinue_of_isNumberStart {c : Char} (h : isNumberStart c = true) :
    isNumberContinue c = true := by
  simp only [isNumberStart, Bool.or_eq_true] at h
  rcases h with (h | h) | h <;> simp [isNumberContinue, h]

theorem isNumberStart_of_isNameStart {c : Char} (h : isNameStart c = true) :
    isNumberStart c = false := by
  have hdigit : c.isDigit = false := by
    by_contra hd
    have hle := (Char.isDigit_iff_toNat.mp (by simpa using hd)).2
    have hlt : '9'.toNat < 'A'.toNat := by decide
    simp only [isNameStart, Bool.or_eq_true, beq_iff_eq] at h
    rcases h with h | rfl
    · have hh := le_toNat_of_isAlpha h
      omega
    · exact hd (by decide)
  have hne : ∀ d, isNameStart d = false → (c == d) = false := by
    intro d hd
    simp only [beq_eq_false_iff_ne]
    rintro rfl
    simp [hd] at h
  simp [isNumberStart, hdigit, hne '-' (by decide), hne '+' (by decide)]

namespace SpellsAtom

theorem prepend {input mid rest : List Char} {a : Atom} (hm : Ignored input mid)
    (h : SpellsAtom mid a rest) : SpellsAtom input a rest := by
  cases h with
  | number hspelled hc htext hends hn => exact .number (hm.trans hspelled) hc htext hends hn
  | string hspelled htext => exact .string (hm.trans hspelled) htext
  | boolTrue hname => exact .boolTrue (hname.prepend hm)
  | boolFalse hname => exact .boolFalse (hname.prepend hm)
  | null hname => exact .null (hname.prepend hm)
  | enum hname henum => exact .enum (hname.prepend hm) henum
  | list hopen hitems hclose => exact .list (hm.trans hopen) hitems hclose
  | object hopen hfields hkeys hclose => exact .object (hm.trans hopen) hfields hkeys hclose

theorem isSignificant_of_isNumberStart {c : Char} (h : isNumberStart c = true) :
    isSignificant c = true := by
  simp only [isSignificant, Bool.not_eq_true', Bool.eq_false_iff]
  intro hc
  simp only [isSpace, Bool.or_eq_true, beq_iff_eq] at hc
  rcases hc with ((((((rfl | rfl) | rfl) | rfl) | rfl) | rfl) | rfl) <;>
    exact absurd h (by decide)

def first (c : Char) : Bool :=
  isNumberStart c || isNameStart c || c == '"' || c == '[' || c == '{'

theorem begins {input rest : List Char} {a : Atom} (h : SpellsAtom input a rest) :
    ∃ c cs, significant input = c :: cs ∧ first c = true := by
  have hname : ∀ {name : String}, SpellsName input name rest →
      ∃ c cs, significant input = c :: cs ∧ first c = true := by
    intro name hname
    obtain ⟨c, ds, hds, hc⟩ := exists_cons_of_isName hname.isName
    exact ⟨c, ds ++ rest, by rw [hname.significant_eq, hds, List.cons_append], by simp [first, hc]⟩
  cases h with
  | number hspelled hc htext hends hn =>
    exact ⟨_, _, (ignored_cons_iff (isSignificant_of_isNumberStart hc)).mp hspelled,
      by simp [first, hc]⟩
  | string hspelled _ => exact ⟨_, _, (ignored_cons_iff (by decide)).mp hspelled, by decide⟩
  | boolTrue h => exact hname h
  | boolFalse h => exact hname h
  | null h => exact hname h
  | enum h _ => exact hname h
  | list hopen _ _ => exact ⟨_, _, (ignored_cons_iff (by decide)).mp hopen, by decide⟩
  | object hopen _ _ _ => exact ⟨_, _, (ignored_cons_iff (by decide)).mp hopen, by decide⟩

theorem length_lt {input rest : List Char} {a : Atom} (h : SpellsAtom input a rest) :
    rest.length < (significant input).length := by
  induction hn : a.nesting using Nat.strongRecOn generalizing input rest a with
  | ind n ih =>
    have hle : ∀ {i b r}, b.nesting < n → SpellsAtom i b r → r.length ≤ i.length := by
      intro i b r hb hspells
      have h₁ := ih _ hb hspells rfl
      have h₂ := (ignored_significant i).suffix.length_le
      omega
    cases h with
    | number hspelled hc _ _ _ =>
      rw [(ignored_cons_iff (isSignificant_of_isNumberStart hc)).mp hspelled]
      simp only [List.length_cons, List.length_append]
      omega
    | string hspelled _ =>
      rw [(ignored_cons_iff (by decide)).mp hspelled]
      simp only [List.length_cons, List.length_append]
      omega
    | boolTrue h => exact h.length_lt
    | boolFalse h => exact h.length_lt
    | null h => exact h.length_lt
    | enum h _ => exact h.length_lt
    | @list _ inner after _ items hopen hitems hclose =>
      have h₁ : after.length ≤ inner.length := by
        refine hitems.length_le fun _ _ _ hm hspells => hle ?_ hspells
        exact hn ▸ Atom.nesting_lt_of_mem hm
      have h₂ := hclose.suffix.length_le
      rw [(ignored_cons_iff (by decide)).mp hopen]
      simp only [List.length_cons] at h₂ ⊢
      omega
    | @object _ inner after _ fields hopen hfields hkeys hclose =>
      have h₁ : after.length ≤ inner.length := by
        refine hfields.length_le fun _ _ _ _ hm hspells => hle ?_ hspells
        exact hn ▸ Atom.nesting_lt_of_mem_fields hm
      have h₂ := hclose.suffix.length_le
      rw [(ignored_cons_iff (by decide)).mp hopen]
      simp only [List.length_cons] at h₂ ⊢
      omega

end SpellsAtom

end QueryDoc
