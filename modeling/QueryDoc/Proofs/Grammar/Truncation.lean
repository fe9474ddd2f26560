import QueryDoc.Proofs.Grammar.Extension
import QueryDoc.Proofs.Grammar.Suffix

/-! A text may stop before its end. What is spelled at its beginning is still spelled there as long as the
text goes on at least up to what is left, because nothing in a phrase depends on what comes after it but
where its last name or number ends. -/

namespace QueryDoc

variable {i r input rest more : List Char}

theorem exists_append_of_suffix {mid : List Char} (h : rest ++ more <:+ mid) :
    ∃ front, mid = front ++ more := by
  obtain ⟨front, rfl⟩ := h
  exact ⟨front ++ rest, by rw [List.append_assoc]⟩

theorem EndsRun.of_append {p : Char → Bool} (h : EndsRun p (rest ++ more)) : EndsRun p rest := by
  cases rest with
  | nil => exact .nil p
  | cons c rest => exact endsRun_cons.mpr (endsRun_cons.mp h)

theorem Ignored.truncate (h : Ignored i r) (hi : i = input ++ more) (hr : r = rest ++ more) :
    Ignored input rest := by
  induction h generalizing input with
  | done =>
    obtain rfl := List.append_cancel_right (hi.symm.trans hr)
    exact .done _
  | @space c cs _ hc hcs ih =>
    obtain ⟨front, rfl⟩ := exists_append_of_suffix (hr ▸ hcs.suffix)
    obtain rfl : c :: front = input := List.append_cancel_right hi
    exact .space hc (ih rfl hr)
  | @comment text after _ htext hends hafter ih =>
    obtain ⟨front, rfl⟩ := exists_append_of_suffix (hr ▸ hafter.suffix)
    rw [← List.append_assoc] at hi
    obtain rfl : '#' :: (text ++ front) = input := List.append_cancel_right hi
    exact .comment htext hends.of_append (ih rfl hr)

theorem SpellsName.truncate {name : String} (h : SpellsName i name r) (hi : i = input ++ more)
    (hr : r = rest ++ more) : SpellsName input name rest := by
  subst hi hr
  exact ⟨h.isName, h.ends.of_append, h.spelled.truncate rfl (List.append_assoc _ _ _).symm⟩

theorem SpellsEach.truncate {α : Type} {item : List Char → α → List Char → Prop} {as : List α}
    (h : SpellsEach item i as r) (hi : i = input ++ more) (hr : r = rest ++ more)
    (hsuffix : ∀ ⦃i a r⦄, item i a r → r <:+ i)
    (hitem : ∀ ⦃i a r⦄, a ∈ as → item (i ++ more) a (r ++ more) → item i a r) :
    SpellsEach item input as rest := by
  induction h generalizing input with
  | nil =>
    obtain rfl := List.append_cancel_right (hi.symm.trans hr)
    exact .nil _
  | cons ha has ih =>
    obtain ⟨front, rfl⟩ := exists_append_of_suffix (hr ▸ has.suffix fun _ _ _ _ hb => hsuffix hb)
    subst hi
    exact .cons (hitem List.mem_cons_self ha)
      (ih rfl hr fun _ _ _ hm => hitem (List.mem_cons_of_mem _ hm))

theorem SpellsFields.truncate {value : List Char → Atom → List Char → Prop}
    {fields : List (String × Atom)} (h : SpellsFields value i fields r) (hi : i = input ++ more)
    (hr : r = rest ++ more) (hsuffix : ∀ ⦃i a r⦄, value i a r → r <:+ i)
    (hvalue : ∀ ⦃i a r⦄ ⦃key : String⦄, (key, a) ∈ fields → value (i ++ more) a (r ++ more) →
      value i a r) : SpellsFields value input fields rest := by
  induction h generalizing input with
  | nil =>
    obtain rfl := List.append_cancel_right (hi.symm.trans hr)
    exact .nil _
  | cons hkey hcolon ha hfields ih =>
    obtain ⟨mid, rfl⟩ := exists_append_of_suffix (hr ▸ hfields.suffix fun _ _ _ _ _ hb => hsuffix hb)
    obtain ⟨start, rfl⟩ := exists_append_of_suffix (hsuffix ha)
    obtain ⟨colon, rfl⟩ := exists_append_of_suffix hcolon.suffix_of_cons
    exact .cons (hkey.truncate hi rfl) (hcolon.truncate rfl rfl) (hvalue List.mem_cons_self ha)
      (ih rfl hr fun _ _ _ _ hm => hvalue (List.mem_cons_of_mem _ hm))

theorem SpellsAtom.truncate {a : Atom} (h : SpellsAtom i a r) (hi : i = input ++ more)
    (hr : r = rest ++ more) : SpellsAtom input a rest := by
  induction hn : a.nesting using Nat.strongRecOn generalizing i input rest r a with
  | ind n ih =>
    cases h with
    | number hspelled hc htext hends hnumber =>
      subst hr
      exact .number (hspelled.truncate hi (by simp)) hc htext hends.of_append hnumber
    | string hspelled htext =>
      subst hr
      exact .string (hspelled.truncate hi (by simp)) htext
    | boolTrue hname => exact .boolTrue (hname.truncate hi hr)
    | boolFalse hname => exact .boolFalse (hname.truncate hi hr)
    | null hname => exact .null (hname.truncate hi hr)
    | enum hname henum => exact .enum (hname.truncate hi hr) henum
    | @list _ _ _ _ items hopen hitems hclose =>
      subst hr
      obtain ⟨after, rfl⟩ := exists_append_of_suffix hclose.suffix_of_cons
      obtain ⟨inner, rfl⟩ := exists_append_of_suffix (hitems.suffix fun _ _ _ _ hb => hb.suffix)
      have hrow := hitems.truncate rfl rfl (fun _ _ _ hb => hb.suffix) fun _ _ _ hm hb =>
        ih _ (hn ▸ Atom.nesting_lt_of_mem hm) hb rfl rfl rfl
      exact .list (hopen.truncate hi rfl) hrow (hclose.truncate rfl rfl)
    | @object _ _ _ _ fields hopen hfields hkeys hclose =>
      subst hr
      obtain ⟨after, rfl⟩ := exists_append_of_suffix hclose.suffix_of_cons
      obtain ⟨inner, rfl⟩ := exists_append_of_suffix (hfields.suffix fun _ _ _ _ _ hb => hb.suffix)
      have hrow := hfields.truncate rfl rfl (fun _ _ _ hb => hb.suffix) fun _ _ _ _ hm hb =>
        ih _ (hn ▸ Atom.nesting_lt_of_mem_fields hm) hb rfl rfl rfl
      exact .object (hopen.truncate hi rfl) hrow hkeys (hclose.truncate rfl rfl)

theorem SpellsType.truncate {t : TypeRef} (h : SpellsType i t r) (hi : i = input ++ more)
    (hr : r = rest ++ more) : SpellsType input t rest := by
  induction h generalizing input rest with
  | named hname => exact .named (hname.truncate hi hr)
  | list hopen hinner hclose ih =>
    subst hr
    obtain ⟨after, rfl⟩ := exists_append_of_suffix hclose.suffix_of_cons
    obtain ⟨inner, rfl⟩ := exists_append_of_suffix hinner.suffix
    exact .list (hopen.truncate hi rfl) (ih rfl rfl) (hclose.truncate rfl rfl)
  | nonNull _ hnull hbang ih =>
    subst hr
    obtain ⟨mid, rfl⟩ := exists_append_of_suffix hbang.suffix_of_cons
    exact .nonNull (ih hi rfl) hnull (hbang.truncate rfl rfl)

theorem SpellsDefault.truncate {value : Option Atom} (h : SpellsDefault i value r)
    (hi : i = input ++ more) (hr : r = rest ++ more) : SpellsDefault input value rest := by
  cases h with
  | absent =>
    obtain rfl := List.append_cancel_right (hi.symm.trans hr)
    exact .absent _
  | given heq ha =>
    subst hr
    obtain ⟨start, rfl⟩ := exists_append_of_suffix ha.suffix
    exact .given (heq.truncate hi rfl) (ha.truncate rfl rfl)

theorem SpellsVariable.truncate {v : VariableDefinition} (h : SpellsVariable i v r)
    (hi : i = input ++ more) (hr : r = rest ++ more) : SpellsVariable input v rest := by
  cases h with
  | mk hdollar hname hcolon ht hvalue hnext =>
    subst hr
    obtain ⟨default, rfl⟩ := exists_append_of_suffix hvalue.suffix
    obtain ⟨type, rfl⟩ := exists_append_of_suffix ht.suffix
    obtain ⟨colon, rfl⟩ := exists_append_of_suffix hcolon.suffix_of_cons
    obtain ⟨start, rfl⟩ := exists_append_of_suffix hname.suffix
    refine .mk (hdollar.truncate hi rfl) (hname.truncate rfl rfl) (hcolon.truncate rfl rfl)
      (ht.truncate rfl rfl) (hvalue.truncate rfl rfl) fun hat => hnext ?_
    obtain ⟨cs, hcs⟩ := List.head?_eq_some_iff.mp hat
    rw [significant_append hcs, List.head?_cons]

theorem SpellsVariables.truncate {vs : List VariableDefinition} (h : SpellsVariables i vs r)
    (hi : i = input ++ more) (hr : r = rest ++ more) : SpellsVariables input vs rest := by
  cases h with
  | absent =>
    obtain rfl := List.append_cancel_right (hi.symm.trans hr)
    exact .absent _
  | given hopen heach hclose =>
    subst hr
    obtain ⟨after, rfl⟩ := exists_append_of_suffix hclose.suffix_of_cons
    obtain ⟨inner, rfl⟩ := exists_append_of_suffix (heach.suffix fun _ _ _ _ hv => hv.suffix)
    have hrow := heach.truncate rfl rfl (fun _ _ _ hv => hv.suffix) fun _ _ _ _ hv =>
      hv.truncate rfl rfl
    exact .given (hopen.truncate hi rfl) hrow (hclose.truncate rfl rfl)

theorem SpellsHeader.truncate {kind : OperationKind} {name : Option String}
    (h : SpellsHeader i kind name r) (hi : i = input ++ more) (hr : r = rest ++ more) :
    SpellsHeader input kind name rest := by
  cases h with
  | absent =>
    obtain rfl := List.append_cancel_right (hi.symm.trans hr)
    exact .absent _
  | keyword hkeyword => exact .keyword (hkeyword.truncate hi hr)
  | named hkeyword hname =>
    subst hr
    obtain ⟨mid, rfl⟩ := exists_append_of_suffix hname.suffix
    exact .named (hkeyword.truncate hi rfl) (hname.truncate rfl rfl)
  | bareName hname hword hne => exact .bareName (hname.truncate hi hr) hword hne

theorem SpellsOperation.truncate {op : Operation} (h : SpellsOperation i op r) (hi : i = input ++ more)
    (hr : r = rest ++ more) : SpellsOperation input op rest := by
  cases h with
  | @mk _ _ body _ _ _ _ hheader hvariables hopen hbody =>
    subst hr
    have hafter : rest ++ more <:+ '{' :: (body ++ '}' :: (rest ++ more)) :=
      ⟨'{' :: (body ++ ['}']), by simp⟩
    obtain ⟨brace, rfl⟩ := exists_append_of_suffix (hafter.trans hopen.suffix)
    obtain ⟨vars, rfl⟩ := exists_append_of_suffix hvariables.suffix
    exact .mk (hheader.truncate hi rfl) (hvariables.truncate rfl rfl)
      (hopen.truncate rfl (by simp)) hbody

theorem SpellsOperation.suffix_cons {op : Operation} (h : SpellsOperation input op rest) :
    '}' :: rest <:+ input := by
  cases h with
  | @mk _ _ body _ _ _ _ hheader hvariables hopen _ =>
    have hbrace : '}' :: rest <:+ '{' :: (body ++ '}' :: rest) := ⟨'{' :: body, by simp⟩
    exact (hbrace.trans hopen.suffix).trans (hvariables.suffix.trans hheader.suffix)

/-- A document is complete with its last closing brace, whatever else stands after it. -/
theorem SpellsDocument.truncate {d : Document} (h : SpellsDocument (input ++ more) d)
    (hmore : '}' ∉ more) : SpellsDocument input d := by
  cases h with
  | @mk rest op hop hrest =>
    obtain ⟨front, hfront⟩ := hop.suffix_cons
    have hleft : ∃ left, rest = left ++ more := by
      rcases List.append_eq_append_iff.mp hfront with ⟨mid, -, hmid⟩ | ⟨mid, -, hmid⟩
      · cases mid with
        | nil =>
          obtain rfl : '}' :: rest = more := hmid
          exact absurd List.mem_cons_self hmore
        | cons c mid => exact ⟨mid, (List.cons.inj hmid).2⟩
      · exact absurd (hmid ▸ List.mem_append_right mid List.mem_cons_self) hmore
    obtain ⟨left, rfl⟩ := hleft
    refine .mk (hop.truncate rfl rfl) (ignored_nil_iff.mpr ?_)
    -- What is ignored all together is ignored up to the place where the text stops.
    by_contra hne
    obtain ⟨c, cs, hcs⟩ := List.exists_cons_of_ne_nil hne
    have hnil := ignored_nil_iff.mp hrest
    rw [significant_append hcs] at hnil
    cases hnil

end QueryDoc
