import QueryDoc.Proofs.Continuation.Token
import QueryDoc.Proofs.Grammar.Separated
import QueryDoc.Proofs.Operation.Reading

/-! A text may go on after a line end. What is spelled in the text as it stands is then spelled in the
longer one too, because no token and no comment goes on past the line end. -/

namespace QueryDoc

variable {input rest more : List Char}

theorem EndsRun.append {p : Char → Bool} (h : EndsRun p rest) (hmore : EndsRun p more) :
    EndsRun p (rest ++ more) := by
  cases rest with
  | nil => exact hmore
  | cons c rest => exact endsRun_cons.mpr (endsRun_cons.mp h)

theorem Ignored.extend (h : Ignored input rest) (hmore : EndsRun (!isLineEnd ·) more) :
    Ignored (input ++ more) (rest ++ more) := by
  induction h with
  | done => exact .done _
  | space hc _ ih => exact .space hc ih
  | comment htext hafter _ ih =>
    rw [List.cons_append, List.append_assoc]
    exact .comment htext (hafter.append hmore) ih

theorem SpellsName.extend {name : String} (h : SpellsName input name rest)
    (hmore : EndsRun (!isLineEnd ·) more) : SpellsName (input ++ more) name (rest ++ more) := by
  have hspelled := h.spelled.extend hmore
  rw [List.append_assoc] at hspelled
  exact ⟨h.isName, h.ends.append hmore.of_lineEnd.isNameContinue, hspelled⟩

/-- The phrases are followed by one another, or by the end of the row. -/
theorem SpellsEach.extend {α : Type} {item : List Char → α → List Char → Prop} {as : List α}
    (h : SpellsEach item input as rest) (hrest : significant rest ≠ [])
    (hbegins : ∀ ⦃i a r⦄, item i a r → significant i ≠ [])
    (hitem : ∀ ⦃i a r⦄, a ∈ as → significant r ≠ [] → item i a r →
      item (i ++ more) a (r ++ more)) :
    SpellsEach item (input ++ more) as (rest ++ more) := by
  induction h with
  | nil => exact .nil _
  | cons ha has ih =>
    refine .cons (hitem List.mem_cons_self ?_ ha) (ih hrest fun _ _ _ hm => ?_)
    · cases has with
      | nil => exact hrest
      | cons hb _ => exact hbegins hb
    · exact hitem (List.mem_cons_of_mem _ hm)

theorem SpellsFields.extend {value : List Char → Atom → List Char → Prop}
    {fields : List (String × Atom)} (h : SpellsFields value input fields rest)
    (hmore : EndsRun (!isLineEnd ·) more)
    (hvalue : ∀ ⦃i a r⦄ ⦃key : String⦄, (key, a) ∈ fields → value i a r →
      value (i ++ more) a (r ++ more)) :
    SpellsFields value (input ++ more) fields (rest ++ more) := by
  induction h with
  | nil => exact .nil _
  | cons hkey hcolon ha _ ih =>
    exact .cons (hkey.extend hmore) (hcolon.extend hmore) (hvalue List.mem_cons_self ha)
      (ih fun _ _ _ _ hm => hvalue (List.mem_cons_of_mem _ hm))

theorem SpellsAtom.extend {a : Atom} (h : SpellsAtom input a rest)
    (hmore : EndsRun (!isLineEnd ·) more) : SpellsAtom (input ++ more) a (rest ++ more) := by
  induction hn : a.nesting using Nat.strongRecOn generalizing input rest a with
  | ind n ih =>
    cases h with
    | @number _ _ text _ _ hspelled hc htext hends hnumber =>
      have hh := hspelled.extend hmore
      rw [List.cons_append, List.append_assoc] at hh
      exact .number hh hc htext (hends.append hmore.of_lineEnd.isNumberContinue) hnumber
    | @string _ _ text hspelled htext =>
      have hh := hspelled.extend hmore
      simp only [List.cons_append, List.append_assoc] at hh
      exact .string hh htext
    | boolTrue hname => exact .boolTrue (hname.extend hmore)
    | boolFalse hname => exact .boolFalse (hname.extend hmore)
    | null hname => exact .null (hname.extend hmore)
    | enum hname henum => exact .enum (hname.extend hmore) henum
    | @list _ inner after _ items hopen hitems hclose =>
      have hafter : significant after ≠ [] := by
        simp [(ignored_cons_iff (by decide)).mp hclose]
      have hbegins : ∀ ⦃i b r⦄, SpellsAtom i b r → significant i ≠ [] := by
        intro i b r hb
        obtain ⟨c, cs, hc, -⟩ := hb.begins
        simp [hc]
      have hrow := hitems.extend hafter hbegins fun i b r hm _ hb =>
        ih _ (hn ▸ Atom.nesting_lt_of_mem hm) hb rfl
      exact .list (hopen.extend hmore) hrow (hclose.extend hmore)
    | @object _ inner after _ fields hopen hfields hkeys hclose =>
      have hrow := hfields.extend hmore fun i b r key hm hb =>
        ih _ (hn ▸ Atom.nesting_lt_of_mem_fields hm) hb rfl
      exact .object (hopen.extend hmore) hrow hkeys (hclose.extend hmore)

theorem SpellsType.extend {t : TypeRef} (h : SpellsType input t rest)
    (hmore : EndsRun (!isLineEnd ·) more) : SpellsType (input ++ more) t (rest ++ more) := by
  induction h with
  | named hname => exact .named (hname.extend hmore)
  | list hopen _ hclose ih => exact .list (hopen.extend hmore) ih (hclose.extend hmore)
  | nonNull _ hnull hbang ih => exact .nonNull ih hnull (hbang.extend hmore)

theorem SpellsDefault.extend {value : Option Atom} (h : SpellsDefault input value rest)
    (hmore : EndsRun (!isLineEnd ·) more) : SpellsDefault (input ++ more) value (rest ++ more) := by
  cases h with
  | absent => exact .absent _
  | given heq ha => exact .given (heq.extend hmore) (ha.extend hmore)

theorem SpellsVariable.head?_ne {v : VariableDefinition} (h : SpellsVariable input v rest) :
    (significant rest).head? ≠ some '@' := by
  cases h with
  | mk _ _ _ _ _ hend => exact hend

/-- What follows must not be a directive, which could only be if the text ended before. -/
theorem SpellsVariable.extend {v : VariableDefinition} (h : SpellsVariable input v rest)
    (hmore : EndsRun (!isLineEnd ·) more)
    (hnext : (significant (rest ++ more)).head? ≠ some '@') :
    SpellsVariable (input ++ more) v (rest ++ more) := by
  cases h with
  | mk hdollar hname hcolon ht hvalue _ =>
    exact .mk (hdollar.extend hmore) (hname.extend hmore) (hcolon.extend hmore) (ht.extend hmore)
      (hvalue.extend hmore) hnext

theorem SpellsVariables.extend {vs : List VariableDefinition} (h : SpellsVariables input vs rest)
    (hmore : EndsRun (!isLineEnd ·) more) : SpellsVariables (input ++ more) vs (rest ++ more) := by
  cases h with
  | absent => exact .absent _
  | @given inner after _ v vs hopen heach hclose =>
    have hafter : significant after ≠ [] := by
      simp [(ignored_cons_iff (by decide)).mp hclose]
    refine .given (hopen.extend hmore) (heach.extend hafter ?_ fun i w r _ hr hw => ?_)
      (hclose.extend hmore)
    · intro i w r hw
      obtain ⟨cs, hcs⟩ := hw.begins
      simp [hcs]
    · obtain ⟨c, cs, hcs⟩ := List.exists_cons_of_ne_nil hr
      refine hw.extend hmore ?_
      have hne := hw.head?_ne
      rw [hcs, List.head?_cons] at hne
      rwa [significant_append hcs, List.head?_cons]

theorem SpellsHeader.extend {kind : OperationKind} {name : Option String}
    (h : SpellsHeader input kind name rest) (hmore : EndsRun (!isLineEnd ·) more) :
    SpellsHeader (input ++ more) kind name (rest ++ more) := by
  cases h with
  | absent => exact .absent _
  | keyword hkeyword => exact .keyword (hkeyword.extend hmore)
  | named hkeyword hname => exact .named (hkeyword.extend hmore) (hname.extend hmore)
  | bareName hname hword hne => exact .bareName (hname.extend hmore) hword hne

theorem SpellsOperation.extend {op : Operation} (h : SpellsOperation input op rest)
    (hmore : EndsRun (!isLineEnd ·) more) : SpellsOperation (input ++ more) op (rest ++ more) := by
  cases h with
  | mk hheader hvariables hopen hbody =>
    have hh := hopen.extend hmore
    simp only [List.cons_append, List.append_assoc] at hh
    exact .mk (hheader.extend hmore) (hvariables.extend hmore) hh hbody

end QueryDoc
