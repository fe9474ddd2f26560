import QueryDoc.Proofs.Abreast.Token
import QueryDoc.Proofs.Atom.Reading
import QueryDoc.Proofs.Document.Respelling
import QueryDoc.Proofs.TypeRef.Reading

/-! Types and values read abreast. A loop has turns enough on both sides, because each turn leaves
less of the first text and the second one has no fewer turns. -/

namespace QueryDoc

open ReadM

namespace Respelling

variable {R : Respelling} {passed now : List Char} {s s' t t' : Scanner} {α : Type}

theorem Agree.get {γ δ : Type} {value : List Char → γ → δ → Prop} {f : Scanner → ReadM γ}
    {f' : Scanner → ReadM δ} (h : R.Agree passed value (f s s) (f' s' s')) :
    R.Agree passed value ((get >>= f) s) ((get >>= f') s') :=
  h

/-- Both runs of the action read values of which the second is the image of the first. -/
def Maps (R : Respelling) (act : ReadM α) (g : α → α) : Prop :=
  ∀ ⦃passed s s'⦄, R.At passed s s' → R.Agree passed (fun _ a b => b = g a) (act s) (act s')

theorem nestedTooDeep_agree {value : List Char → α → α → Prop} (h : R.At passed s s') (limit : Nat) :
    R.Agree passed value
      ((failWith fun s => .nestedTooDeep limit s.nextSpan : ReadM α) s)
      ((failWith fun s => .nestedTooDeep limit s.nextSpan : ReadM α) s') := by
  cases hs : s.rest with
  | nil =>
    have hspan := h.over_nextSpan_end hs
    exact .failWith (.of_over hspan (.inl hspan.marks))
  | cons c cs =>
    have hspan := h.over_nextSpan hs
    exact .failWith (.of_over hspan (.inr ⟨passed, c, hspan.marks⟩))

theorem readUntil_agree {closing : Char} {delimiter : String} {before : List Char}
    {opening opening' : Span} {item : ReadM α} {g : α → α} (hitem : R.Maps item g)
    (hconsumes : Consumes item)
    (hopening : R.Over ⟨before, delimiter.toList⟩ opening opening') (h : R.At passed s s')
    {turns turns' : Nat} (hturns : s.rest.length < turns) (hle : turns ≤ turns') :
    R.Agree passed (fun _ as bs => bs = as.map g) (readUntil closing delimiter opening item turns s)
      (readUntil closing delimiter opening' item turns' s') := by
  induction turns generalizing turns' passed s s' with
  | zero => omega
  | succ turns ih =>
    obtain ⟨turns', rfl⟩ := Nat.exists_eq_add_of_le' (Nat.lt_of_lt_of_le (Nat.succ_pos _) hle)
    refine (peekInside_agree h hopening).bind ?_
    rintro mid c _ t t' - - hmid hat rfl
    have h₁ := h.length_le hat hmid
    split
    · exact .pure hat rfl
    refine (hitem hat).bind ?_
    rintro now a _ u u' ha - - hat₁ rfl
    have h₂ := hconsumes ha
    refine (ih hat₁ (by omega) (by omega)).next ?_
    rintro last as _ v v' hat₂ rfl
    exact .pure hat₂ rfl

section Types

open TypeRef

theorem readBase_agree {inner : ReadM TypeRef} (hinner : R.Maps inner id) :
    R.Maps (readBase inner) id := by
  intro passed s s' h
  refine (peek_agree h "type").next ?_
  rintro mid c _ t t' hat rfl
  split
  · refine (literal_agree hat (by rfl)).next ?_
    rintro _ opening opening' u u' hat₁ ⟨before, -, hopening⟩
    refine (hinner hat₁).next ?_
    rintro _ inner _ v v' hat₂ rfl
    refine (peekInside_agree hat₂ hopening).next fun _ _ _ w w' hat₃ _ => ?_
    exact (literal_agree hat₃ (by rfl)).thenPure fun _ => rfl
  · refine (name_agree hat).withHelp.next ?_
    rintro _ name _ u u' hat₁ rfl
    exact .pure hat₁ rfl

theorem readMark_agree (base : TypeRef) : R.Maps (readMark base) id := by
  intro passed s s' h
  refine (peek?_agree h).next ?_
  rintro mid c? _ t t' hat rfl
  split
  · exact (literal_agree hat (by rfl)).thenPure fun _ => rfl
  · exact .pure hat rfl

theorem readType_agree (limit levels : Nat) : R.Maps (TypeRef.readWithin limit levels) id := by
  induction levels with
  | zero => exact fun passed s s' h => nestedTooDeep_agree h limit
  | succ levels ih =>
    intro passed s s' h
    rw [TypeRef.readWithin_succ]
    refine (readBase_agree ih h).next ?_
    rintro _ _ base t t' hat rfl
    exact readMark_agree base hat

end Types

section Atoms

open Atom

theorem readNumber_agree : R.Maps readNumber (Atom.respell R.lineBreak) := by
  intro passed s s' h
  have hline : ∀ c, isLineEnd c = true → isNumberContinue c = false :=
    LineBreak.same_on_lineEnds (p := isNumberContinue) rfl
  have hat := h.skipRun (LineBreak.same_on_lineEnds (p := isNumberContinue) rfl)
  rw [readNumber_eq, readNumber_eq, h.run_eq hline]
  cases hn : ofNumber? (s.run isNumberContinue) with
  | some a =>
    refine .ok (List.prefix_append _ _) hat ?_
    cases ofNumber?_eq_some_iff.mp hn <;> rfl
  | none =>
    have hspan := h.over_spanFrom hat (Scanner.run_append_rest_skipRun s isNumberContinue).symm
      (isLineEnd_of_mem_run hline)
    refine .failWith (.of_over hspan ⟨passed, ?_⟩)
    rw [String.toList_ofList]
    exact hspan.marks

theorem readKeyword_agree {word : String} (hword : word ∈ ["true", "false", "null"]) {value : Atom}
    (hvalue : value = value.respell R.lineBreak) :
    R.Maps (readKeyword word value) (Atom.respell R.lineBreak) :=
  fun _ _ _ h => (keyword_agree h (.inr hword)).withHelp.thenPure fun _ => hvalue

variable {inner : ReadM Atom}

theorem readList_agree (hinner : R.Maps inner (Atom.respell R.lineBreak))
    (hconsumes : Consumes inner) :
    R.Maps (readList inner) (Atom.respell R.lineBreak) := by
  intro passed s s' h
  refine (literal_agree h (by rfl)).next ?_
  rintro _ opening opening' t t' hat ⟨before, -, hopening⟩
  refine .get ?_
  have hturns := hat.length_le_there
  rw [readItems_eq, readItems_eq]
  refine (readUntil_agree hinner hconsumes hopening hat (by omega) (by omega)).next ?_
  rintro _ items _ u u' hat₁ rfl
  refine (literal_agree hat₁ (by rfl)).thenPure fun _ => ?_
  rw [Atom.respell, respellItems_eq_map]

/-- The keys read so far, with their places before `now`. -/
def Keys (R : Respelling) (now : List Char) (seen seen' : List (String × Span)) : Prop :=
  List.Forall₂ (fun k k' => k.1 = k'.1 ∧
    ∃ before, R.Over ⟨before, k.1.toList⟩ k.2 k'.2 ∧ before ++ k.1.toList <+: now) seen seen'

theorem Keys.later {seen seen' : List (String × Span)} (h : R.Keys passed seen seen')
    (hnow : passed <+: now) : R.Keys now seen seen' :=
  h.imp fun _ _ ⟨hkey, before, hover, hbefore⟩ => ⟨hkey, before, hover, hbefore.trans hnow⟩

theorem Keys.cons {seen seen' : List (String × Span)} (h : R.Keys now seen seen') {key : String}
    {before : List Char} {span span' : Span} (hover : R.Over ⟨before, key.toList⟩ span span')
    (hbefore : before ++ key.toList <+: now) :
    R.Keys now ((key, span) :: seen) ((key, span') :: seen') :=
  List.Forall₂.cons ⟨rfl, before, hover, hbefore⟩ h

theorem Keys.lookup {seen seen' : List (String × Span)} (h : R.Keys now seen seen') (key : String) :
    (seen.lookup key = none ∧ seen'.lookup key = none) ∨
    ∃ first first' before, seen.lookup key = some first ∧ seen'.lookup key = some first' ∧
      R.Over ⟨before, key.toList⟩ first first' ∧ before ++ key.toList <+: now := by
  induction h with
  | nil => exact .inl ⟨rfl, rfl⟩
  | @cons k k' seen seen' hk _ ih =>
    obtain ⟨k, span⟩ := k
    obtain ⟨k', span'⟩ := k'
    obtain ⟨rfl, before, hover, hbefore⟩ := hk
    by_cases he : key = k
    · subst he
      exact .inr ⟨span, span', before, by simp, by simp, hover, hbefore⟩
    · have hne : (key == k) = false := by simpa using he
      simpa [List.lookup_cons, hne] using ih

theorem readFields_agree (hinner : R.Maps inner (Atom.respell R.lineBreak))
    (hconsumes : Consumes inner)
    {before : List Char} {opening opening' : Span}
    (hopening : R.Over ⟨before, ['{']⟩ opening opening') {seen seen' : List (String × Span)}
    (hseen : R.Keys passed seen seen') (h : R.At passed s s') {turns turns' : Nat}
    (hturns : s.rest.length < turns) (hle : turns ≤ turns') :
    R.Agree passed (fun _ fields fields' => fields' = respellFields R.lineBreak fields)
      (readFields inner opening turns seen s) (readFields inner opening' turns' seen' s') := by
  induction turns generalizing turns' passed seen seen' s s' with
  | zero => omega
  | succ turns ih =>
    obtain ⟨turns', rfl⟩ := Nat.exists_eq_add_of_le' (Nat.lt_of_lt_of_le (Nat.succ_pos _) hle)
    refine (peekInside_agree h hopening).bind ?_
    rintro mid c _ t t' hpeek - hmid hat rfl
    split
    · exact .pure hat rfl
    refine .get ((name_agree hat).bind ?_)
    rintro _ key _ u u' hname - - hat₁ rfl
    refine .get ?_
    -- The name begins where the scanner stood, because ignored input had been passed over.
    have hkey := Token.name_ok hname
    have hsplit : t.rest = key.toList ++ u.rest := by
      obtain ⟨rfl, -⟩ := Token.peekInside_ok hpeek
      have hh := hkey.significant_eq
      rwa [Scanner.rest_skipIgnored, significant_significant, ← Scanner.rest_skipIgnored] at hh
    obtain rfl := hat.now_eq hat₁ hsplit
    have hspan := hat.over_spanFrom hat₁ hsplit (isLineEnd_of_mem_name hkey.isName)
    rcases (hseen.later hmid).lookup key with
      ⟨hnone, hnone'⟩ | ⟨first, first', earlier, hs, hs', hover, hprefix⟩
    · simp only [hnone, hnone']
      refine (literal_agree hat₁ (by rfl)).bind fun mid₂ _ _ v v' _ _ hmid₂ hat₂ _ => ?_
      refine (hinner hat₂).bind ?_
      rintro mid₃ a _ w w' ha - hmid₃ hat₃ rfl
      have h₁ := h.length_le hat₂ (hmid.trans ((List.prefix_append _ _).trans hmid₂))
      have h₂ := hconsumes ha
      have hseen' := hseen.later ((hmid.trans (List.prefix_append _ _)).trans (hmid₂.trans hmid₃))
      refine (ih (hseen'.cons hspan (hmid₂.trans hmid₃)) hat₃ (by omega) (by omega)).next ?_
      rintro _ rest _ x x' hat₄ rfl
      exact .pure hat₄ rfl
    · simp only [hs, hs']
      refine .failWith (.of_over_noted hspan hover ?_)
      exact ⟨earlier, mid, hover.marks, hspan.marks, hprefix⟩

theorem readObject_agree (hinner : R.Maps inner (Atom.respell R.lineBreak))
    (hconsumes : Consumes inner) :
    R.Maps (readObject inner) (Atom.respell R.lineBreak) := by
  intro passed s s' h
  refine (literal_agree h (by rfl)).next ?_
  rintro _ opening opening' t t' hat ⟨before, -, hopening⟩
  refine .get ?_
  have hturns := hat.length_le_there
  refine (readFields_agree hinner hconsumes hopening .nil hat (by omega) (by omega)).next ?_
  rintro _ fields _ u u' hat₁ rfl
  exact (literal_agree hat₁ (by rfl)).thenPure fun _ => rfl

theorem readFrom_agree (hinner : R.Maps inner (Atom.respell R.lineBreak))
    (hconsumes : Consumes inner) (c : Char) :
    R.Maps (readFrom inner c) (Atom.respell R.lineBreak) := by
  refine readFrom_cases (motive := fun read => R.Maps read (Atom.respell R.lineBreak))
    ?number ?string ?boolTrue ?boolFalse ?null ?list ?object ?enum
  case number => exact fun _ => readNumber_agree
  case string =>
    intro passed s s' h
    refine (string_agree h).next ?_
    rintro _ text _ t t' hat rfl
    exact .pure hat rfl
  case boolTrue | boolFalse | null => exact readKeyword_agree (by decide) rfl
  case list => exact readList_agree hinner hconsumes
  case object => exact readObject_agree hinner hconsumes
  case enum =>
    intro _ _ _ passed s s' h
    refine (name?_agree h).bind ?_
    rintro _ name? _ t t' hname - - hat rfl
    cases name? with
    | some name => exact .pure hat rfl
    | none =>
      rcases Token.name?_ok hname with ⟨name, hsome, -⟩ | ⟨-, rfl, -⟩
      · cases hsome
      · exact .failWith (hat.unexpected s.endsRun_skipIgnored ["value"])

theorem readAtom_agree (limit levels : Nat) :
    R.Maps (Atom.readWithin limit levels) (Atom.respell R.lineBreak) := by
  induction levels with
  | zero => exact fun passed s s' h => nestedTooDeep_agree h limit
  | succ levels ih =>
    intro passed s s' h
    rw [Atom.readWithin_succ]
    refine (peek_agree h "value").next ?_
    rintro _ c _ t t' hat rfl
    exact readFrom_agree ih (readWithin_consumes limit levels) c hat

end Atoms

end Respelling

end QueryDoc
