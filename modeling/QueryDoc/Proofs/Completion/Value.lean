import QueryDoc.Proofs.Completion.Basic

/-! Types and values that lack their end. A name or a scalar that is due is put in its place, and
strings, lists and objects are closed. The value of a key may be due one level below the deepest one
that is allowed, because keys do not count as levels and values do. -/

namespace QueryDoc

open ReadM

theorem spellsName_of_ignored {input after : List Char} {name : String}
    (hname : isName name.toList = true) (hafter : EndsVariable after)
    (h : Ignored input (name.toList ++ after)) : SpellsName input name after :=
  ⟨hname, hafter.1.isNameContinue, h⟩

/-- Before a character that is neither part of a token nor an at sign, every phrase ends. -/
theorem endsVariable_cons {c : Char} (htoken : isTokenContinue c = false)
    (hsignificant : isSignificant c = true) (hne : c ≠ '@') (cs : List Char) :
    EndsVariable (c :: cs) := by
  refine ⟨endsRun_cons.mpr htoken, ?_⟩
  rw [significant_cons hsignificant, List.head?_cons]
  simpa using hne

theorem completes_mark {cs : List Char} (c : Char) (h : significant cs = []) :
    Completes cs fun i r => Ignored i (c :: r) :=
  .of_end h [c] fun _ _ _ hinput => hinput

namespace TypeRef

variable {limit levels : Nat} {s s' : Scanner} {e : ReadError}

theorem readMark_error {base : TypeRef} (h : readMark base s = .error e s') :
    e.isIncomplete = false := by
  rw [readMark, bind_of_ok (Token.peek?_eq s)] at h
  split at h
  · next hmark =>
    rcases bind_error_iff.mp h with h | ⟨span, s₁, -, h⟩
    · by_contra hincomplete
      have hend := Token.literal_error rfl h (by simpa using hincomplete)
      rw [Scanner.rest_skipIgnored, significant_significant] at hend
      rw [hend] at hmark
      cases hmark
    · cases h
  · cases h

theorem readBase_completes {inner : ReadM TypeRef}
    (hinner : Sound inner fun input t rest => SpellsType input t rest ∧ t.nesting ≤ levels)
    (hcomplete : ∀ ⦃s e s'⦄, inner s = .error e s' → e.isIncomplete = true →
      Completes s.rest fun i r => ∃ t, SpellsType i t r ∧ t.nesting ≤ levels)
    (h : readBase inner s = .error e s') (he : e.isIncomplete = true) :
    Completes s.rest fun i r => ∃ t, SpellsType i t r ∧ t.nesting ≤ levels + 1 := by
  have hskip := s.ignored_skipIgnored
  cases hs : significant s.rest with
  | nil =>
    refine .of_end hs "T".toList fun input after hafter hinput => ⟨named "T", .named ?_, ?_⟩
    · exact spellsName_of_ignored (by decide) hafter hinput
    · simp [nesting]
  | cons c cs =>
    by_cases hc : c = '['
    · subst hc
      rw [readBase_of_bracket hs] at h
      rcases bind_error_iff.mp h with h | ⟨opening, s₁, hopen, h⟩
      · have hend := Token.literal_error rfl h he
        rw [Scanner.rest_skipIgnored, significant_significant, hs] at hend
        cases hend
      have hopen' := hskip.trans (Token.ignored_of_literal hopen)
      rcases bind_error_iff.mp h with h | ⟨t, s₂, ht, h⟩
      · refine (hcomplete h he).imp [']'] (fun after _ => ?_) ?_
        · exact endsVariable_cons (by decide) (by decide) (by decide) after
        · rintro more after hmore - ⟨t, hspells, hlevels⟩
          refine ⟨list t, .list (hopen'.extend hmore) hspells (.done _), ?_⟩
          simpa [nesting] using hlevels
      obtain ⟨mid, ⟨hspells, hlevels⟩, hmid⟩ := hinner ht
      -- Nothing but the closing bracket can be missing.
      have hend : significant s₂.rest = [] := by
        rcases bind_error_iff.mp h with h | ⟨d, s₃, hpeek, h⟩
        · exact Token.peekInside_error h
        · obtain ⟨rfl, -⟩ := Token.peekInside_ok hpeek
          rcases bind_error_iff.mp h with h | ⟨closing, s₄, -, h⟩
          · simpa using Token.literal_error rfl h he
          · cases h
      refine (completes_mark ']' hend).imp [] (fun _ hafter => hafter) ?_
      rintro more after hmore - hclose
      refine ⟨list t, ?_, by simpa [nesting] using hlevels⟩
      exact .list (hopen'.extend hmore) (hspells.extend hmore)
        ((hmid.extend hmore).trans hclose)
    · rw [readBase_of_other hs hc] at h
      rcases bind_error_iff.mp h with h | ⟨name, s₁, -, h⟩
      · obtain ⟨d, hname, hd⟩ := withHelp_error h
        have hend := Token.name_error hname (hd.trans he)
        rw [Scanner.rest_skipIgnored, significant_significant, hs] at hend
        cases hend
      · cases h

theorem readWithin_completes (h : readWithin limit levels s = .error e s')
    (he : e.isIncomplete = true) :
    Completes s.rest fun i r => ∃ t, SpellsType i t r ∧ t.nesting ≤ levels := by
  induction levels generalizing s e s' with
  | zero =>
    cases h
    cases he
  | succ levels ih =>
    rw [readWithin_succ] at h
    rcases bind_error_iff.mp h with h | ⟨base, s₁, -, h⟩
    · exact readBase_completes (readWithin_sound limit levels) (fun _ _ _ h he => ih h he) h he
    · rw [readMark_error h] at he
      cases he

end TypeRef

namespace Atom

variable {limit levels : Nat} {s s' : Scanner} {e : ReadError}

/-- A value of at most so many levels is spelled. -/
def SpellsWithin (levels : Nat) (input : List Char) (a : Atom) (rest : List Char) : Prop :=
  SpellsAtom input a rest ∧ a.nesting ≤ levels

theorem SpellsWithin.prepend {input mid rest : List Char} {a : Atom} (hm : Ignored input mid)
    (h : SpellsWithin levels mid a rest) : SpellsWithin levels input a rest :=
  ⟨h.1.prepend hm, h.2⟩

theorem SpellsWithin.extend {input rest more : List Char} {a : Atom}
    (h : SpellsWithin levels input a rest) (hmore : EndsRun (!isLineEnd ·) more) :
    SpellsWithin levels (input ++ more) a (rest ++ more) :=
  ⟨h.1.extend hmore, h.2⟩

theorem sound_mono {act : ReadM Atom} (h : Sound act (SpellsWithin levels)) :
    Sound act (SpellsWithin (levels + 1)) := by
  intro s a s' ha
  obtain ⟨rest, ⟨hspells, hlevels⟩, hrest⟩ := h ha
  exact ⟨rest, ⟨hspells, by omega⟩, hrest⟩

theorem spellsWithin_enum {input after : List Char} (hafter : EndsVariable after)
    (h : Ignored input ('x' :: after)) : SpellsWithin (levels + 1) input (enum "x") after :=
  ⟨.enum (spellsName_of_ignored (by decide) hafter h) (by decide), by simp [nesting]⟩

theorem readKeyword_error {word : String} {value : Atom}
    (h : readKeyword word value s = .error e s') (he : e.isIncomplete = true) :
    significant s.rest = [] := by
  rcases bind_error_iff.mp h with h | ⟨span, s₁, -, h⟩
  · obtain ⟨d, hword, hd⟩ := withHelp_error h
    exact Token.keyword_error hword (hd.trans he)
  · cases h

theorem readNumber_error (h : readNumber s = .error e s') : e.isIncomplete = false := by
  rw [readNumber_eq] at h
  cases hn : ofNumber? (s.run isNumberContinue) with
  | some a =>
    rw [hn] at h
    cases h
  | none =>
    rw [hn] at h
    cases h
    rfl

theorem readString_completes (hs : significant s.rest ≠ [])
    (h : (do return string (← Token.string) : ReadM Atom) s = .error e s')
    (he : e.isIncomplete = true) :
    Completes s.rest fun i r => ∃ a, SpellsWithin (levels + 1) i a r := by
  rcases bind_error_iff.mp h with h | ⟨text, s₁, -, h⟩
  · rcases Token.string_error h he with hend | ⟨rest, hrest, hquote⟩
    · exact absurd hend hs
    · refine ⟨['"'], fun after _ => ⟨string (String.ofList (rest ++ ['\n'])), .string ?_ ?_, ?_⟩⟩
      · have hline : EndsRun (!isLineEnd ·) ('\n' :: (['"'] ++ after)) :=
          endsRun_cons.mpr (by decide)
        have hh := (ignored_significant s.rest).extend hline
        simpa [hrest] using hh
      · simpa using hquote
      · simp [nesting]
  · cases h

theorem readList_completes {inner : ReadM Atom} (hinner : Sound inner (SpellsWithin levels))
    (hcomplete : ∀ ⦃s e s'⦄, inner s = .error e s' → e.isIncomplete = true →
      Completes s.rest fun i r => ∃ a, SpellsWithin levels i a r)
    (hs : significant s.rest ≠ []) (h : readList inner s = .error e s')
    (he : e.isIncomplete = true) :
    Completes s.rest fun i r => ∃ a, SpellsWithin (levels + 1) i a r := by
  rcases bind_error_iff.mp h with h | ⟨opening, s₁, hopen, h⟩
  · exact absurd (Token.literal_error rfl h he) hs
  have hopen' := Token.ignored_of_literal hopen
  rcases bind_error_iff.mp h with h | ⟨here, s₂, hget, h⟩
  · cases h
  cases hget
  rcases bind_error_iff.mp h with h | ⟨items, s₂, hitems, h⟩
  · rw [readItems_eq] at h
    have hturns : (significant s₁.rest).length < s₁.rest.length + 1 := by
      have hle := (ignored_significant s₁.rest).suffix.length_le
      omega
    have hrow := readUntil_completes hinner (fun _ _ _ _ hm h => h.prepend hm)
      (fun _ _ _ h => h.1.length_lt) ?_ (fun _ _ _ _ hmore _ h => h.extend hmore) hcomplete
      hturns h he
    · refine hrow.imp [']'] (fun after _ => ?_) ?_
      · exact endsVariable_cons (by decide) (by decide) (by decide) after
      · rintro more after hmore - ⟨items, rest, heach, hrest⟩
        obtain ⟨hitems, hlevels⟩ := spellsEach_and_iff.mp heach
        refine ⟨list items, .list (hopen'.extend hmore) hitems hrest, ?_⟩
        simpa [nesting] using itemsNesting_le_iff.mpr hlevels
    · rintro i a r ⟨hspells, -⟩
      obtain ⟨c, cs, hcs, hc⟩ := hspells.begins
      rw [hcs, List.head?_cons]
      rintro ⟨⟩
      cases hc
  rcases bind_error_iff.mp h with h | ⟨closing, s₃, -, h⟩
  · rw [readItems_eq] at hitems
    obtain ⟨cs, hcs⟩ := readUntil_closing hitems
    have hend := Token.literal_error rfl h he
    simp [hcs] at hend
  · cases h

/-- The fields that are left of an object, whose keys have not been seen before. -/
def SpellsNewFields (levels : Nat) (seen : List (String × Span)) (input rest : List Char) : Prop :=
  ∃ fields last, SpellsFields (SpellsWithin levels) input fields last ∧ Ignored last rest ∧
    (fields.map Prod.fst).Nodup ∧ ∀ key ∈ fields.map Prod.fst, seen.lookup key = none

theorem SpellsNewFields.nil {seen : List (String × Span)} {input rest : List Char}
    (h : Ignored input rest) : SpellsNewFields levels seen input rest :=
  ⟨[], input, .nil input, h, by simp, by simp⟩

theorem SpellsNewFields.cons {seen : List (String × Span)} {key : String} (span : Span)
    {input colon start mid rest : List Char} {a : Atom} (hnew : seen.lookup key = none)
    (hkey : SpellsName input key colon) (hcolon : Ignored colon (':' :: start))
    (ha : SpellsWithin levels start a mid)
    (h : SpellsNewFields levels ((key, span) :: seen) mid rest) :
    SpellsNewFields levels seen input rest := by
  obtain ⟨fields, last, hfields, hlast, hnodup, hseen⟩ := h
  have hfresh : key ∉ fields.map Prod.fst := by
    intro hm
    simpa using hseen key hm
  have hold := (forall_lookup_cons_eq_none_iff hfresh span seen).mp hseen
  exact ⟨(key, a) :: fields, last, .cons hkey hcolon ha hfields, hlast,
    List.nodup_cons.mpr ⟨hfresh, hnodup⟩, List.forall_mem_cons.mpr ⟨hnew, hold⟩⟩

theorem SpellsNewFields.prepend {seen : List (String × Span)} {input mid rest : List Char}
    (hm : Ignored input mid) (h : SpellsNewFields levels seen mid rest) :
    SpellsNewFields levels seen input rest := by
  obtain ⟨fields, last, hfields, hlast, hkeys⟩ := h
  obtain ⟨last', hfields', hlast'⟩ := hfields.prepend hm
  exact ⟨fields, last', hfields', hlast'.trans hlast, hkeys⟩

/-- A colon and a value, as they follow the key of a field. -/
def SpellsPair (levels : Nat) (input rest : List Char) : Prop :=
  ∃ start a, Ignored input (':' :: start) ∧ SpellsWithin levels start a rest

theorem completes_pair {cs : List Char} (h : significant cs = []) :
    Completes cs (SpellsPair (levels + 1)) :=
  .of_end h [':', 'x'] fun _ after hafter hinput =>
    ⟨'x' :: after, enum "x", hinput, spellsWithin_enum hafter (.done _)⟩

/-- A field may lack its value, or the colon as well. The key is a new one then, because a key that
was there before is an error of its own. -/
theorem readFields_completes {value : ReadM Atom} (hvalue : Sound value (SpellsWithin (levels + 1)))
    (hcomplete : ∀ ⦃s e s'⦄, value s = .error e s' → e.isIncomplete = true →
      Completes s.rest fun i r => ∃ a, SpellsWithin (levels + 1) i a r)
    {opening : Span} {turns : Nat} {seen : List (String × Span)}
    (hturns : (significant s.rest).length < turns)
    (h : readFields value opening turns seen s = .error e s') (he : e.isIncomplete = true) :
    Completes s.rest (SpellsNewFields (levels + 1) seen) := by
  induction turns generalizing seen s with
  | zero => omega
  | succ turns ih =>
    have hskip := s.ignored_skipIgnored
    rw [readFields] at h
    rcases bind_error_iff.mp h with h | ⟨c, s₁, hpeek, h⟩
    · exact .of_end (Token.peekInside_error h) [] fun input after _ hinput => .nil hinput
    obtain ⟨rfl, cs, hcs⟩ := Token.peekInside_ok hpeek
    split at h
    · cases h
    rcases bind_error_iff.mp h with h | ⟨start, s₂, hstart, h⟩
    · cases h
    cases hstart
    rcases bind_error_iff.mp h with h | ⟨key, s₃, hkey, h⟩
    · have hend := Token.name_error h he
      rw [Scanner.rest_skipIgnored, significant_significant, hcs] at hend
      cases hend
    have hkey' := (Token.name_ok hkey).prepend hskip
    rcases bind_error_iff.mp h with h | ⟨here, s₄, hget, h⟩
    · cases h
    cases hget
    cases hlookup : seen.lookup key with
    | some first =>
      simp only [hlookup] at h
      cases h
      cases he
    | none =>
      simp only [hlookup] at h
      -- What stands after the key is completed, and the object may be closed after it.
      have hlast (hpair : Completes s₃.rest (SpellsPair (levels + 1))) :
          Completes s.rest (SpellsNewFields (levels + 1) seen) := by
        refine hpair.imp [] (fun _ hafter => hafter) ?_
        rintro more after hmore - ⟨start, a, hcolon, ha⟩
        exact .cons (s₃.spanFrom s.skipIgnored.position) hlookup (hkey'.extend hmore) hcolon ha
          (.nil (.done after))
      rcases bind_error_iff.mp h with h | ⟨colon, s₄, hcolon, h⟩
      · exact hlast (completes_pair (Token.literal_error rfl h he))
      have hcolon' := Token.ignored_of_literal hcolon
      rcases bind_error_iff.mp h with h | ⟨a, s₅, ha, h⟩
      · refine hlast ((hcomplete h he).imp [] (fun _ hafter => hafter) ?_)
        rintro more after hmore - ⟨a, ha⟩
        exact ⟨s₄.rest ++ more, a, hcolon'.extend hmore, ha⟩
      obtain ⟨mid, hspells, hmid⟩ := hvalue ha
      rcases bind_error_iff.mp h with h | ⟨fields, s₆, -, h⟩
      · have hturns' : (significant s₅.rest).length < turns := by
          have h₁ := hkey'.length_lt
          have h₂ := hcolon'.suffix.length_le
          have h₃ := hspells.1.length_lt
          have h₄ := (ignored_significant s₄.rest).suffix.length_le
          have h₅ := (hmid.trans (ignored_significant s₅.rest)).suffix.length_le
          rw [List.length_append] at h₂
          omega
        refine (ih hturns' h).imp [] (fun _ hafter => hafter) ?_
        rintro more after hmore - hfields
        exact .cons _ hlookup (hkey'.extend hmore) (hcolon'.extend hmore) (hspells.extend hmore)
          (hfields.prepend (hmid.extend hmore))
      · cases h

theorem readFields_closing {value : ReadM Atom} {opening : Span} {turns : Nat}
    {seen : List (String × Span)} {fields : List (String × Atom)}
    (h : readFields value opening turns seen s = .ok fields s') :
    ∃ cs, significant s'.rest = '}' :: cs := by
  induction turns generalizing seen s fields with
  | zero => cases h
  | succ turns ih =>
    rw [readFields] at h
    obtain ⟨c, s₁, hpeek, h⟩ := bind_ok_iff.mp h
    obtain ⟨rfl, cs, hcs⟩ := Token.peekInside_ok hpeek
    split at h
    · next hc =>
      obtain ⟨rfl, rfl⟩ := pure_ok_iff.mp h
      exact ⟨cs, by rw [Scanner.rest_skipIgnored, significant_significant, hcs, hc]⟩
    · obtain ⟨start, s₂, hstart, h⟩ := bind_ok_iff.mp h
      obtain ⟨key, s₃, hkey, h⟩ := bind_ok_iff.mp h
      obtain ⟨here, s₄, hget, h⟩ := bind_ok_iff.mp h
      cases hlookup : seen.lookup key with
      | some first =>
        simp only [hlookup] at h
        cases h
      | none =>
        simp only [hlookup] at h
        obtain ⟨colon, s₅, hcolon, h⟩ := bind_ok_iff.mp h
        obtain ⟨a, s₆, ha, h⟩ := bind_ok_iff.mp h
        obtain ⟨rest, s₇, hrest, h⟩ := bind_ok_iff.mp h
        obtain ⟨rfl, rfl⟩ := pure_ok_iff.mp h
        exact ih hrest

theorem readObject_completes {value : ReadM Atom} (hvalue : Sound value (SpellsWithin (levels + 1)))
    (hcomplete : ∀ ⦃s e s'⦄, value s = .error e s' → e.isIncomplete = true →
      Completes s.rest fun i r => ∃ a, SpellsWithin (levels + 1) i a r)
    (hs : significant s.rest ≠ []) (h : readObject value s = .error e s')
    (he : e.isIncomplete = true) :
    Completes s.rest fun i r => ∃ a, SpellsWithin (levels + 2) i a r := by
  rcases bind_error_iff.mp h with h | ⟨opening, s₁, hopen, h⟩
  · exact absurd (Token.literal_error rfl h he) hs
  have hopen' := Token.ignored_of_literal hopen
  rcases bind_error_iff.mp h with h | ⟨here, s₂, hget, h⟩
  · cases h
  cases hget
  rcases bind_error_iff.mp h with h | ⟨fields, s₂, hfields, h⟩
  · have hturns : (significant s₁.rest).length < s₁.rest.length + 1 := by
      have hle := (ignored_significant s₁.rest).suffix.length_le
      omega
    refine (readFields_completes hvalue hcomplete hturns h he).imp ['}'] (fun after _ => ?_) ?_
    · exact endsVariable_cons (by decide) (by decide) (by decide) after
    · rintro more after hmore - ⟨fields, rest, hfields, hrest, hnodup, -⟩
      obtain ⟨hspells, hlevels⟩ := spellsFields_and_iff.mp hfields
      refine ⟨object fields, .object (hopen'.extend hmore) hspells hnodup hrest, ?_⟩
      simpa [nesting] using fieldsNesting_le_iff.mpr hlevels
  rcases bind_error_iff.mp h with h | ⟨closing, s₃, -, h⟩
  · obtain ⟨cs, hcs⟩ := readFields_closing hfields
    have hend := Token.literal_error rfl h he
    simp [hcs] at hend
  · cases h

theorem readFrom_completes {inner : ReadM Atom} {c : Char} {cs : List Char}
    (hinner : Sound inner (SpellsWithin (levels + 1)))
    (hcomplete : ∀ ⦃s e s'⦄, inner s = .error e s' → e.isIncomplete = true →
      Completes s.rest fun i r => ∃ a, SpellsWithin (levels + 1) i a r)
    (hs : significant s.rest = c :: cs) (h : readFrom inner c s = .error e s')
    (he : e.isIncomplete = true) :
    Completes s.rest fun i r => ∃ a, SpellsWithin (levels + 2) i a r := by
  have hne : significant s.rest ≠ [] := by simp [hs]
  refine readFrom_cases (motive := fun read => read s = .error e s' →
    Completes s.rest fun i r => ∃ a, SpellsWithin (levels + 2) i a r)
    ?number ?string ?boolTrue ?boolFalse ?null ?list ?object ?enum h
  case number =>
    intro _ h
    rw [readNumber_error h] at he
    cases he
  case string => exact fun h => readString_completes hne h he
  case boolTrue | boolFalse | null => exact fun h => absurd (readKeyword_error h he) hne
  case list => exact fun h => readList_completes hinner hcomplete hne h he
  case object => exact fun h => readObject_completes hinner hcomplete hne h he
  case enum =>
    intro _ _ _ h
    rcases bind_error_iff.mp h with h | ⟨n?, s₁, hname, h⟩
    · exact absurd h Token.name?_ne_error
    rcases Token.name?_ok hname with ⟨n, rfl, -⟩ | ⟨rfl, rfl, -⟩
    · cases h
    · cases h
      have hend := Scanner.rest_eq_nil_of_unexpected he
      exact absurd (by simpa using hend) hne

/-- A value that is due at the deepest level lies one level deeper only if a key is due it. -/
theorem readWithin_completes (h : readWithin limit levels s = .error e s')
    (he : e.isIncomplete = true) :
    Completes s.rest fun i r => ∃ a, SpellsWithin (levels + 1) i a r := by
  induction levels generalizing s e s' with
  | zero =>
    cases h
    cases he
  | succ levels ih =>
    rw [readWithin_succ] at h
    rcases bind_error_iff.mp h with h | ⟨c, s₁, hpeek, h⟩
    · refine .of_end (Token.peek_error h) ['x'] fun input after hafter hinput => ?_
      exact ⟨enum "x", spellsWithin_enum hafter hinput⟩
    obtain ⟨rfl, cs, hcs⟩ := Token.peek_ok hpeek
    have hfrom := readFrom_completes (sound_mono (readWithin_sound limit levels))
      (fun _ _ _ h he => ih h he) (by simpa using hcs) h he
    refine hfrom.imp [] (fun _ hafter => hafter) ?_
    rintro more after hmore - ⟨a, ha⟩
    exact ⟨a, ha.prepend (s.ignored_skipIgnored.extend hmore)⟩

end Atom

end QueryDoc
