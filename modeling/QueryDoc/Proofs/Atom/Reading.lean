import QueryDoc.Atom
import QueryDoc.Proofs.Atom.Spelling

/-! Reading a value agrees with the grammar: what is read is spelled in the text and nests no deeper
than allowed, and what is spelled there is read. -/

namespace QueryDoc.Atom

open ReadM

variable {limit levels : Nat}

theorem ofNumber?_eq_some_iff {text : List Char} {a : Atom} :
    ofNumber? text = some a ↔ SpellsNumber text a := by
  unfold ofNumber?
  constructor
  · intro h
    split at h
    · next n hn =>
      cases h
      exact .int hn
    · next hn =>
      split at h
      · next x hx =>
        split at h
        · next hfinite =>
          cases h
          exact .float hn hx hfinite
        · cases h
      · cases h
  · intro h
    cases h with
    | int hn => simp [hn]
    | float hn hx hfinite => simp [hn, hx, hfinite]

theorem readNumber_eq (s : Scanner) :
    readNumber s = match ofNumber? (s.run isNumberContinue) with
      | some a => .ok a (s.skipRun isNumberContinue)
      | none => failWith (fun t => .invalidNumber (String.ofList (s.run isNumberContinue))
          (t.spanFrom s.position)) (s.skipRun isNumberContinue) := by
  change (match ofNumber? (s.run isNumberContinue) with
    | some a => pure a
    | none => failWith fun t => .invalidNumber (String.ofList (s.run isNumberContinue))
        (t.spanFrom s.position) : ReadM Atom) (s.skipRun isNumberContinue) = _
  cases ofNumber? (s.run isNumberContinue) <;> rfl

theorem readNumber_ok {s s' : Scanner} {a : Atom} (h : readNumber s = .ok a s') :
    s'.rest = s.rest.dropWhile isNumberContinue ∧
      SpellsNumber (s.rest.takeWhile isNumberContinue) a := by
  rw [readNumber_eq] at h
  cases hn : ofNumber? (s.run isNumberContinue) with
  | none =>
    rw [hn] at h
    cases h
  | some b =>
    rw [hn] at h
    cases h
    exact ⟨by simp, ofNumber?_eq_some_iff.mp hn⟩

theorem readNumber_of_spells {s : Scanner} {text rest : List Char} {a : Atom}
    (hs : s.rest = text ++ rest) (htext : ∀ c ∈ text, isNumberContinue c = true)
    (hrest : EndsRun isNumberContinue rest) (h : SpellsNumber text a) :
    ∃ s', readNumber s = .ok a s' ∧ s'.rest = rest := by
  have hrun : s.run isNumberContinue = text := by
    rw [Scanner.run, hs, takeWhile_append_of_endsRun htext hrest]
  refine ⟨_, by rw [readNumber_eq, hrun, ofNumber?_eq_some_iff.mpr h], ?_⟩
  rw [Scanner.rest_skipRun, hs, dropWhile_append_of_endsRun htext hrest]

theorem readItems_eq (item : ReadM Atom) (opening : Span) (turns : Nat) :
    readItems item opening turns = readUntil ']' "[" opening item turns := by
  induction turns with
  | zero => rfl
  | succ turns ih => rw [readItems, readUntil, ih]

theorem readList_ok {item : ReadM Atom} {spells : List Char → Atom → List Char → Prop}
    (hitem : Sound item spells) (hprepend : ∀ ⦃i m a r⦄, Ignored i m → spells m a r → spells i a r)
    {s s' : Scanner} {a : Atom} (h : readList item s = .ok a s') :
    ∃ items inner after, a = list items ∧ Ignored s.rest ('[' :: inner) ∧
      SpellsEach spells inner items after ∧ Ignored after (']' :: s'.rest) := by
  obtain ⟨opening, s₁, hopen, h⟩ := bind_ok_iff.mp h
  obtain ⟨here, s₂, hget, h⟩ := bind_ok_iff.mp h
  cases hget
  obtain ⟨items, s₂, hitems, h⟩ := bind_ok_iff.mp h
  obtain ⟨closing, s₃, hclose, h⟩ := bind_ok_iff.mp h
  obtain ⟨rfl, rfl⟩ := pure_ok_iff.mp h
  rw [readItems_eq] at hitems
  obtain ⟨after, heach, hafter⟩ := readUntil_sound hitem hprepend hitems
  exact ⟨items, s₁.rest, after, rfl, Token.ignored_of_literal hopen, heach,
    hafter.trans (Token.ignored_of_literal hclose)⟩

theorem forall_lookup_cons_eq_none_iff {keys : List String} {key : String} (hnew : key ∉ keys)
    (span : Span) (seen : List (String × Span)) :
    (∀ k ∈ keys, ((key, span) :: seen).lookup k = none) ↔ ∀ k ∈ keys, seen.lookup k = none := by
  refine forall₂_congr fun k hk => ?_
  have hne : (k == key) = false := by
    simpa using fun he : k = key => hnew (he ▸ hk)
  rw [List.lookup_cons, hne]

/-- Keys read before and keys read now are all different. -/
theorem readFields_ok {value : ReadM Atom} {spells : List Char → Atom → List Char → Prop}
    (hvalue : Sound value spells) {opening : Span} {turns : Nat} {seen : List (String × Span)}
    {s s' : Scanner} {fields : List (String × Atom)}
    (h : readFields value opening turns seen s = .ok fields s') :
    (∃ rest, SpellsFields spells s.rest fields rest ∧ Ignored rest s'.rest) ∧
      (fields.map Prod.fst).Nodup ∧ ∀ key ∈ fields.map Prod.fst, seen.lookup key = none := by
  induction turns generalizing seen s fields with
  | zero => cases h
  | succ turns ih =>
    rw [readFields] at h
    obtain ⟨c, s₁, hpeek, h⟩ := bind_ok_iff.mp h
    obtain ⟨rfl, -⟩ := Token.peekInside_ok hpeek
    have hskip := s.ignored_skipIgnored
    split at h
    · obtain ⟨rfl, rfl⟩ := pure_ok_iff.mp h
      exact ⟨⟨s.rest, .nil _, hskip⟩, by simp, by simp⟩
    · obtain ⟨start, s₂, hstart, h⟩ := bind_ok_iff.mp h
      cases hstart
      obtain ⟨key, s₃, hkey, h⟩ := bind_ok_iff.mp h
      obtain ⟨after, s₄, hafter, h⟩ := bind_ok_iff.mp h
      cases hafter
      cases hlookup : seen.lookup key with
      | some first =>
        simp only [hlookup] at h
        exact (failWith_ok_iff.mp h).elim
      | none =>
        simp only [hlookup] at h
        obtain ⟨colon, s₄, hcolon, h⟩ := bind_ok_iff.mp h
        obtain ⟨a, s₅, ha, h⟩ := bind_ok_iff.mp h
        obtain ⟨rest, s₆, hrest, h⟩ := bind_ok_iff.mp h
        obtain ⟨rfl, rfl⟩ := pure_ok_iff.mp h
        obtain ⟨mid, hspells, hmid⟩ := hvalue ha
        obtain ⟨⟨last, hfields, hlast⟩, hnodup, hseen⟩ := ih hrest
        obtain ⟨last', hfields', hlast'⟩ := hfields.prepend hmid
        have hnew : key ∉ rest.map Prod.fst := by
          intro hm
          simpa using hseen key hm
        have hold := (forall_lookup_cons_eq_none_iff hnew _ _).mp hseen
        refine ⟨⟨last', ?_, hlast'.trans hlast⟩, ?_, ?_⟩
        · exact .cons ((Token.name_ok hkey).prepend hskip) (Token.ignored_of_literal hcolon)
            hspells hfields'
        · exact List.nodup_cons.mpr ⟨hnew, hnodup⟩
        · exact List.forall_mem_cons.mpr ⟨hlookup, hold⟩

theorem readObject_ok {value : ReadM Atom} {spells : List Char → Atom → List Char → Prop}
    (hvalue : Sound value spells) {s s' : Scanner} {a : Atom}
    (h : readObject value s = .ok a s') :
    ∃ fields inner after, a = object fields ∧ Ignored s.rest ('{' :: inner) ∧
      SpellsFields spells inner fields after ∧ (fields.map Prod.fst).Nodup ∧
      Ignored after ('}' :: s'.rest) := by
  obtain ⟨opening, s₁, hopen, h⟩ := bind_ok_iff.mp h
  obtain ⟨here, s₂, hget, h⟩ := bind_ok_iff.mp h
  cases hget
  obtain ⟨fields, s₂, hfields, h⟩ := bind_ok_iff.mp h
  obtain ⟨closing, s₃, hclose, h⟩ := bind_ok_iff.mp h
  obtain ⟨rfl, rfl⟩ := pure_ok_iff.mp h
  obtain ⟨⟨after, hspells, hafter⟩, hnodup, -⟩ := readFields_ok hvalue hfields
  exact ⟨fields, s₁.rest, after, rfl, Token.ignored_of_literal hopen, hspells, hnodup,
    hafter.trans (Token.ignored_of_literal hclose)⟩

theorem readKeyword_ok {word : String} {value a : Atom} {s s' : Scanner}
    (h : readKeyword word value s = .ok a s') : a = value ∧ SpellsName s.rest word s'.rest := by
  obtain ⟨span, s₁, hword, h⟩ := bind_ok_iff.mp h
  obtain ⟨rfl, rfl⟩ := pure_ok_iff.mp h
  exact ⟨rfl, Token.keyword_ok (withHelp_ok_iff.mp hword)⟩

/-- Reads the kind of value that a character begins, given how to read a value inside it. -/
def readFrom (inner : ReadM Atom) (c : Char) : ReadM Atom := do
  if isNumberStart c then readNumber
  else if c = '"' then return string (← Token.string)
  else if c = 't' then readKeyword "true" (bool true)
  else if c = 'f' then readKeyword "false" (bool false)
  else if c = 'n' then readKeyword "null" null
  else if c = '[' then readList inner
  else if c = '{' then readObject inner
  else
    match ← Token.name? with
    | some name => return enum name
    | none => failWith (·.unexpected ["value"])

theorem readWithin_succ (limit levels : Nat) :
    readWithin limit (levels + 1) = Token.peek "value" >>= readFrom (readWithin limit levels) :=
  rfl

/-- What holds of the reader of each kind of value holds of the one chosen. -/
theorem readFrom_cases {motive : ReadM Atom → Prop} {inner : ReadM Atom} {c : Char}
    (number : isNumberStart c = true → motive readNumber)
    (string : motive do return string (← Token.string))
    (boolTrue : motive (readKeyword "true" (bool true)))
    (boolFalse : motive (readKeyword "false" (bool false)))
    (null : motive (readKeyword "null" null))
    (list : motive (readList inner)) (object : motive (readObject inner))
    (enum : c ≠ 't' → c ≠ 'f' → c ≠ 'n' → motive do
      match ← Token.name? with
      | some name => return enum name
      | none => failWith (·.unexpected ["value"])) :
    motive (readFrom inner c) := by
  rw [readFrom]
  by_cases hstart : isNumberStart c = true
  · rw [if_pos hstart]
    exact number hstart
  rw [if_neg hstart]
  refine iteInduction (fun _ => string) fun _ => ?_
  refine iteInduction (fun _ => boolTrue) fun ht => ?_
  refine iteInduction (fun _ => boolFalse) fun hf => ?_
  refine iteInduction (fun _ => null) fun hn => ?_
  refine iteInduction (fun _ => list) fun _ => ?_
  exact iteInduction (fun _ => object) fun _ => enum ht hf hn

theorem readFrom_ok {inner : ReadM Atom} {s s' : Scanner} {c : Char} {cs : List Char} {a : Atom}
    (hinner : Sound inner fun input a rest => SpellsAtom input a rest ∧ a.nesting ≤ levels)
    (hs : s.rest = c :: cs) (hc : isSignificant c = true) (h : readFrom inner c s = .ok a s') :
    SpellsAtom s.rest a s'.rest ∧ a.nesting ≤ levels + 1 := by
  have hsig : significant s.rest = c :: cs := by rw [hs, significant_cons hc]
  refine readFrom_cases (motive := fun read => read s = .ok a s' →
    SpellsAtom s.rest a s'.rest ∧ a.nesting ≤ levels + 1)
    ?number ?string ?boolTrue ?boolFalse ?null ?list ?object ?enum h
  case number =>
    intro hstart h
    obtain ⟨hrest, hn⟩ := readNumber_ok h
    have hcont := isNumberContinue_of_isNumberStart hstart
    rw [hs, List.takeWhile_cons_of_pos hcont] at hn
    rw [hs, List.dropWhile_cons_of_pos hcont] at hrest
    have hnest : a.nesting = 1 := by cases hn <;> rfl
    refine ⟨.number ?_ hstart (fun d hd => List.mem_takeWhile_imp hd) ?_ hn, by omega⟩
    · rw [hrest, List.takeWhile_append_dropWhile, ← hs]
      exact .done _
    · rw [hrest]
      exact endsRun_dropWhile _ _
  case string =>
    intro h
    obtain ⟨text, s₁, htext, h⟩ := bind_ok_iff.mp h
    obtain ⟨rfl, rfl⟩ := pure_ok_iff.mp h
    obtain ⟨hspelled, hquote⟩ := Token.string_ok htext
    exact ⟨.string (hspelled ▸ ignored_significant _) hquote, by simp [nesting]⟩
  case boolTrue =>
    intro h
    obtain ⟨rfl, hname⟩ := readKeyword_ok h
    exact ⟨.boolTrue hname, by simp [nesting]⟩
  case boolFalse =>
    intro h
    obtain ⟨rfl, hname⟩ := readKeyword_ok h
    exact ⟨.boolFalse hname, by simp [nesting]⟩
  case null =>
    intro h
    obtain ⟨rfl, hname⟩ := readKeyword_ok h
    exact ⟨.null hname, by simp [nesting]⟩
  case list =>
    intro h
    obtain ⟨items, start, after, rfl, hopen, hitems, hclose⟩ :=
      readList_ok hinner (fun _ _ _ _ hm h => ⟨h.1.prepend hm, h.2⟩) h
    obtain ⟨hspells, hlevels⟩ := spellsEach_and_iff.mp hitems
    refine ⟨.list hopen hspells hclose, ?_⟩
    simpa [nesting] using itemsNesting_le_iff.mpr hlevels
  case object =>
    intro h
    obtain ⟨fields, start, after, rfl, hopen, hfields, hkeys, hclose⟩ := readObject_ok hinner h
    obtain ⟨hspells, hlevels⟩ := spellsFields_and_iff.mp hfields
    refine ⟨.object hopen hspells hkeys hclose, ?_⟩
    simpa only [nesting, Nat.add_le_add_iff_right] using fieldsNesting_le_iff.mpr hlevels
  case enum =>
    intro ht hf hn h
    obtain ⟨n?, s₁, hname, h⟩ := bind_ok_iff.mp h
    rcases Token.name?_ok hname with ⟨name, rfl, hspells⟩ | ⟨rfl, -, -⟩
    · obtain ⟨rfl, rfl⟩ := pure_ok_iff.mp h
      refine ⟨.enum hspells ?_, by simp [nesting]⟩
      obtain ⟨d, ds, hds, -⟩ := exists_cons_of_isName hspells.isName
      have hhead := hspells.significant_eq
      rw [hsig, hds, List.cons_append, List.cons.injEq] at hhead
      obtain ⟨rfl, -⟩ := hhead
      have hisName := hspells.isName
      rw [hds] at hisName ⊢
      simp [isEnumName, hisName, ht, hf, hn]
    · exact (failWith_ok_iff.mp h).elim

theorem readWithin_sound (limit levels : Nat) :
    Sound (readWithin limit levels) fun input a rest =>
      SpellsAtom input a rest ∧ a.nesting ≤ levels := by
  induction levels with
  | zero =>
    intro s a s' h
    cases h
  | succ levels ih =>
    intro s a s' h
    rw [readWithin_succ] at h
    obtain ⟨c, s₁, hpeek, h⟩ := bind_ok_iff.mp h
    obtain ⟨rfl, cs, hcs⟩ := Token.peek_ok hpeek
    obtain ⟨hspells, hlevels⟩ :=
      readFrom_ok ih (by simpa using hcs) (isSignificant_of_significant hcs) h
    have hskip := s.ignored_skipIgnored
    exact ⟨s'.rest, ⟨hspells.prepend hskip, hlevels⟩, .done _⟩

theorem readWithin_consumes (limit levels : Nat) : Consumes (readWithin limit levels) :=
  (readWithin_sound limit levels).consumes fun _ _ _ h => h.1.length_lt

theorem readFields_reaches {value : ReadM Atom} {spells : List Char → Atom → List Char → Prop}
    (hlength : ∀ ⦃i a r⦄, spells i a r → r.length < (significant i).length)
    (hvalue : ∀ ⦃s i a r⦄, spells i a r → significant s.rest = significant i →
      Reaches value s a r)
    {opening : Span} {turns : Nat} {seen : List (String × Span)} {s : Scanner}
    {input rest cs : List Char} {fields : List (String × Atom)}
    (h : SpellsFields spells input fields rest) (hrest : significant rest = '}' :: cs)
    (hkeys : (fields.map Prod.fst).Nodup)
    (hseen : ∀ key ∈ fields.map Prod.fst, seen.lookup key = none)
    (hturns : (significant input).length < turns) (hs : significant s.rest = significant input) :
    Reaches (readFields value opening turns seen) s fields rest := by
  induction h generalizing s turns seen with
  | nil =>
    cases turns with
    | zero => omega
    | succ turns =>
      refine .of_bind (Token.peekInside_of_significant (hs.trans hrest)) ?_
      rw [if_pos rfl]
      exact .pure (by simpa using hs)
  | @cons input colon start mid rest key a fields hkey hcolon ha hfields ih =>
    cases turns with
    | zero => omega
    | succ turns =>
      obtain ⟨c, ds, hds, hc⟩ := exists_cons_of_isName hkey.isName
      have hsig : significant s.rest = c :: (ds ++ colon) := by
        rw [hs, hkey.significant_eq, hds, List.cons_append]
      have hne : c ≠ '}' := by
        rintro rfl
        exact absurd hc (by decide)
      have hmid : (significant mid).length < turns := by
        have hstart := hkey.length_lt_of_colon hcolon
        have hvalue := (hlength ha).trans_le (ignored_significant start).suffix.length_le
        have hle := (ignored_significant mid).suffix.length_le
        omega
      obtain ⟨hnew, hnodup⟩ := List.nodup_cons.mp hkeys
      obtain ⟨hlookup, hold⟩ := List.forall_mem_cons.mp hseen
      obtain ⟨s₁, hname, hs₁⟩ := Token.name_of_spells (s := s.skipIgnored) hkey (by simpa using hs)
      obtain ⟨span, s₂, hlit, hs₂⟩ := Token.literal_of_cons ":" (s := s₁)
        (by rw [hs₁, (ignored_cons_iff (by decide)).mp hcolon]) (by rfl)
      have hseen' := (forall_lookup_cons_eq_none_iff hnew
        (s₁.spanFrom s.skipIgnored.position) seen).mpr hold
      refine .of_bind (Token.peekInside_of_significant hsig) ?_
      rw [if_neg hne]
      refine .of_bind (a := s.skipIgnored) rfl (.of_bind hname (.of_bind (a := s₁) rfl ?_))
      simp only [hlookup]
      refine .of_bind hlit (.bind (hvalue ha (by rw [hs₂])) fun s₃ hs₃ => ?_)
      exact .bind (ih hrest hnodup hseen' hmid hs₃) fun s₄ hs₄ => .pure hs₄

theorem readKeyword_reaches {word : String} {value : Atom} {s : Scanner} {input rest : List Char}
    (h : SpellsName input word rest) (hs : significant s.rest = significant input) :
    Reaches (readKeyword word value) s value rest := by
  obtain ⟨span, s', hword, hs'⟩ := Token.keyword_of_spells h hs
  exact .of_bind (withHelp_ok_iff.mpr hword) (.pure (by rw [hs']))

theorem readList_reaches {item : ReadM Atom} {spells : List Char → Atom → List Char → Prop}
    (hbegins : ∀ ⦃i a r⦄, spells i a r → SpellsAtom i a r)
    (hitem : ∀ ⦃s i a r⦄, spells i a r → significant s.rest = significant i → Reaches item s a r)
    {s : Scanner} {inner after rest : List Char} {items : List Atom}
    (hopen : significant s.rest = '[' :: inner) (h : SpellsEach spells inner items after)
    (hclose : Ignored after (']' :: rest)) : Reaches (readList item) s (list items) rest := by
  have hafter := (ignored_cons_iff (by decide)).mp hclose
  obtain ⟨opening, s₁, hlit, hs₁⟩ := Token.literal_of_cons "[" hopen (by rfl)
  refine .of_bind hlit (.of_bind (a := s₁) rfl ?_)
  have hitems : Reaches (readItems item opening (s₁.rest.length + 1)) s₁ items after := by
    rw [readItems_eq]
    have hle := (ignored_significant s₁.rest).suffix.length_le
    exact readUntil_reaches (fun _ _ _ h => (hbegins h).begins) (by decide)
      (fun _ _ _ h => (hbegins h).length_lt) (fun _ _ _ _ h _ hs => hitem h hs) h hafter
      (by rw [← hs₁]; omega) (by rw [hs₁])
  refine .bind hitems fun s₂ hs₂ => ?_
  obtain ⟨closing, s₃, hlit', hs₃⟩ := Token.literal_of_cons "]" (hs₂.trans hafter) (by rfl)
  exact .of_bind hlit' (.pure (by rw [hs₃]))

theorem readObject_reaches {value : ReadM Atom} {spells : List Char → Atom → List Char → Prop}
    (hlength : ∀ ⦃i a r⦄, spells i a r → r.length < (significant i).length)
    (hvalue : ∀ ⦃s i a r⦄, spells i a r → significant s.rest = significant i →
      Reaches value s a r)
    {s : Scanner} {inner after rest : List Char} {fields : List (String × Atom)}
    (hopen : significant s.rest = '{' :: inner) (h : SpellsFields spells inner fields after)
    (hkeys : (fields.map Prod.fst).Nodup) (hclose : Ignored after ('}' :: rest)) :
    Reaches (readObject value) s (object fields) rest := by
  have hafter := (ignored_cons_iff (by decide)).mp hclose
  obtain ⟨opening, s₁, hlit, hs₁⟩ := Token.literal_of_cons "\x7b" hopen (by rfl)
  refine .of_bind hlit (.of_bind (a := s₁) rfl ?_)
  have hle := (ignored_significant s₁.rest).suffix.length_le
  have hfields : Reaches (readFields value opening (s₁.rest.length + 1) []) s₁ fields after :=
    readFields_reaches hlength hvalue h hafter hkeys (by simp) (by rw [← hs₁]; omega) (by rw [hs₁])
  refine .bind hfields fun s₂ hs₂ => ?_
  obtain ⟨closing, s₃, hlit', hs₃⟩ := Token.literal_of_cons "\x7d" (hs₂.trans hafter) (by rfl)
  exact .of_bind hlit' (.pure (by rw [hs₃]))

theorem readFrom_of_isNameStart {inner : ReadM Atom} {c : Char} (hc : isNameStart c = true)
    (henum : ¬(c = 't' ∨ c = 'f' ∨ c = 'n')) :
    readFrom inner c = (do
      match ← Token.name? with
      | some name => return enum name
      | none => failWith (·.unexpected ["value"]) : ReadM Atom) := by
  simp only [not_or] at henum
  have hne : ∀ d, isNameStart d = false → c ≠ d := by
    rintro d hd rfl
    simp [hd] at hc
  rw [readFrom, isNumberStart_of_isNameStart hc, if_neg (by decide), if_neg (hne '"' (by decide)),
    if_neg henum.1, if_neg henum.2.1, if_neg henum.2.2, if_neg (hne '[' (by decide)),
    if_neg (hne '{' (by decide))]

theorem readFrom_reaches {inner : ReadM Atom} {s : Scanner} {input rest cs : List Char} {c : Char}
    {a : Atom} (h : SpellsAtom input a rest) (hlevels : a.nesting ≤ levels + 1)
    (hinner : ∀ ⦃s i b r⦄, SpellsAtom i b r ∧ b.nesting ≤ levels →
      significant s.rest = significant i → Reaches inner s b r)
    (hs : s.rest = significant input) (hc : s.rest = c :: cs) :
    Reaches (readFrom inner c) s a rest := by
  have hsig : significant s.rest = significant input := by rw [hs, significant_significant]
  -- The first character of a word is that of the text.
  have hword : ∀ {word : String} {d : Char} {ds : List Char}, SpellsName input word rest →
      word.toList = d :: ds → c = d := by
    intro word d ds hname hword
    rw [hs, hname.significant_eq, hword, List.cons_append, List.cons.injEq] at hc
    exact hc.1.symm
  have hfirst : ∀ {d : Char} {ds : List Char}, isSignificant d = true → Ignored input (d :: ds) →
      c = d ∧ significant s.rest = d :: ds := by
    intro d ds hd hspelled
    have hhead := (ignored_cons_iff hd).mp hspelled
    rw [hs, hhead, List.cons.injEq] at hc
    exact ⟨hc.1.symm, hsig.trans hhead⟩
  cases h with
  | @number _ _ text d a hspelled hd htext hends hn =>
    have hinput := (ignored_cons_iff (SpellsAtom.isSignificant_of_isNumberStart hd)).mp hspelled
    have hrest : s.rest = (d :: text) ++ rest := by
      rw [hs, hinput, List.cons_append]
    rw [hs, hinput, List.cons.injEq] at hc
    obtain ⟨rfl, -⟩ := hc
    have hcont := isNumberContinue_of_isNumberStart hd
    obtain ⟨s', hread, hs'⟩ :=
      readNumber_of_spells hrest (List.forall_mem_cons.mpr ⟨hcont, htext⟩) hends hn
    exact ⟨s', by rw [readFrom, if_pos hd, hread], by rw [hs']⟩
  | string hspelled hquote =>
    obtain ⟨rfl, hhead⟩ := hfirst (by decide) hspelled
    obtain ⟨s', hread, hs'⟩ := Token.string_of_significant hhead hquote
    exact .of_bind hread (.pure (by rw [hs']))
  | boolTrue hname =>
    obtain rfl := hword hname rfl
    exact readKeyword_reaches hname hsig
  | boolFalse hname =>
    obtain rfl := hword hname rfl
    exact readKeyword_reaches hname hsig
  | null hname =>
    obtain rfl := hword hname rfl
    exact readKeyword_reaches hname hsig
  | @enum _ _ name hname henum =>
    obtain ⟨d, ds, hds, hd⟩ := exists_cons_of_isName hname.isName
    obtain rfl := hword hname hds
    obtain ⟨s', hread, hs'⟩ := Token.name?_of_spells hname hsig
    have hnot : ¬(c = 't' ∨ c = 'f' ∨ c = 'n') := by
      rintro (rfl | rfl | rfl) <;> simp [hds, isEnumName] at henum
    rw [readFrom_of_isNameStart hd hnot]
    exact .of_bind hread (.pure (by rw [hs']))
  | @list _ start after _ items hopen hitems hclose =>
    obtain ⟨rfl, hhead⟩ := hfirst (by decide) hopen
    rw [nesting, Nat.add_le_add_iff_right, itemsNesting_le_iff] at hlevels
    exact readList_reaches (fun _ _ _ h => h.1) hinner hhead
      (spellsEach_and_iff.mpr ⟨hitems, hlevels⟩) hclose
  | @object _ start after _ fields hopen hfields hkeys hclose =>
    obtain ⟨rfl, hhead⟩ := hfirst (by decide) hopen
    rw [nesting, Nat.add_le_add_iff_right, fieldsNesting_le_iff] at hlevels
    exact readObject_reaches (fun _ _ _ h => h.1.length_lt) hinner hhead
      (spellsFields_and_iff.mpr ⟨hfields, hlevels⟩) hkeys hclose

theorem readWithin_reaches {input rest : List Char} {a : Atom} {s : Scanner}
    (h : SpellsAtom input a rest) (hlevels : a.nesting ≤ levels)
    (hs : significant s.rest = significant input) :
    Reaches (readWithin limit levels) s a rest := by
  induction levels generalizing input rest a s with
  | zero => exact absurd a.nesting_pos (by omega)
  | succ levels ih =>
    obtain ⟨c, cs, hc, -⟩ := h.begins
    rw [readWithin_succ]
    refine .of_bind (Token.peek_of_significant (hs.trans hc)) ?_
    exact readFrom_reaches h hlevels (fun _ _ _ _ h hs => ih h.1 h.2 hs) (by simpa using hs)
      (by simpa using hs.trans hc)

end QueryDoc.Atom
