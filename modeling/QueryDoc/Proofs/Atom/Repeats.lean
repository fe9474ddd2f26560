import QueryDoc.Proofs.Abreast.Token
import QueryDoc.Proofs.Atom.Draft
import QueryDoc.Proofs.Atom.Inserting
import QueryDoc.Proofs.Atom.RoundTrip
import QueryDoc.Proofs.Reading.Readers

/-! Reading drafts. The places that are kept for the keys of an object are those of the keys before, so
that a reader stops at the first key of the text that repeats another one of its object. If there is none,
it reads the whole value. -/

namespace QueryDoc

open ReadM

variable {α β : Type} {source : List Char} {file : Option String} {s : Scanner} {limit levels : Nat}

/-- The scanner stands somewhere in this text. -/
def Scanner.IsIn (source : List Char) (file : Option String) (s : Scanner) : Prop :=
  ∃ n, s = (start source file).advanceBy n

namespace Scanner.IsIn

theorem advanceBy (h : s.IsIn source file) (n : Nat) : (s.advanceBy n).IsIn source file := by
  obtain ⟨k, rfl⟩ := h
  exact ⟨k + n, (advanceBy_add _ k n).symm⟩

theorem of_ok {act : ReadM α} {a : α} {s' : Scanner} (h : s.IsIn source file)
    (hact : Advances act s) (hok : act s = .ok a s') : s'.IsIn source file := by
  obtain ⟨n, rfl⟩ := hact.exists_of_ok hok
  exact h.advanceBy n

theorem standsAfter (h : s.IsIn source file) :
    s.file = file ∧ ∃ passed, s.StandsAfter source passed := by
  obtain ⟨n, rfl⟩ := h
  exact ⟨file_advanceBy _ n, (standsAfter_start source file).advanceBy n⟩

end Scanner.IsIn

/-- The span covers the key where it stands in this text. -/
def Key.IsAt (source : List Char) (file : Option String) (key : Key) (span : Span) : Prop :=
  ∃ before, before ++ key.place = source ∧ span = .across file ⟨before, key.name.toList⟩

/-- A name is spanned by the places before and after reading it. -/
theorem Token.name_isAt {input colon : List Char} {name : String} (h : SpellsName input name colon)
    (hs : significant s.rest = significant input) (hin : s.IsIn source file) :
    ∃ s', Token.name s.skipIgnored = .ok name s' ∧ s'.rest = colon ∧ s'.IsIn source file ∧
      Key.IsAt source file ⟨name, significant input⟩ (s'.spanFrom s.skipIgnored.position) := by
  obtain ⟨s', hname, hcolon⟩ := Token.name_of_spells (s := s.skipIgnored) h (by simpa using hs)
  have hskip : s.skipIgnored.IsIn source file := hin.advanceBy _
  have hin' := hskip.of_ok Token.name_advances hname
  obtain ⟨n, hn⟩ := Token.name_advances (s := s.skipIgnored)
  rw [outcome, hname] at hn
  obtain rfl : s' = s.skipIgnored.advanceBy n := hn
  obtain ⟨-, passed, hhere⟩ := hskip.standsAfter
  have hrest : s.skipIgnored.rest = significant input := by rw [Scanner.rest_skipIgnored, hs]
  have hthere := hhere.advanceBy_of_split (n := n) (by rw [hcolon, hrest, h.significant_eq])
  refine ⟨_, hname, hcolon, hin', passed, hrest ▸ hhere.split, ?_⟩
  rw [Scanner.spanFrom, hthere.position, hhere.position, hin'.standsAfter.1, Span.across,
    Position.pastAll_ofPrefix _ (Respelling.isLineEnd_of_mem_name h.isName)]

/-- The places kept for the keys read so far are those of the first keys of each name. -/
def Recorded (source : List Char) (file : Option String) (earlier : List Key)
    (seen : List (String × Span)) : Prop :=
  ∀ key : Key, Option.Rel (Key.IsAt source file) (Draft.firstOf? earlier key) (seen.lookup key.name)

theorem Recorded.nil : Recorded source file [] [] :=
  fun _ => .none

theorem Recorded.concat {earlier : List Key} {seen : List (String × Span)} {key : Key} {span : Span}
    (h : Recorded source file earlier seen) (hnew : Draft.firstOf? earlier key = none)
    (hkey : key.IsAt source file span) :
    Recorded source file (earlier ++ [key]) ((key.name, span) :: seen) := by
  intro other
  rw [Draft.firstOf?, List.find?_append, List.lookup_cons, ← Draft.firstOf?]
  cases hbeq : other.name == key.name with
  | true =>
    have hname : other.name = key.name := beq_iff_eq.mp hbeq
    have hnone : Draft.firstOf? earlier other = none := by rwa [Draft.firstOf?, hname]
    rw [hnone, Option.none_or, List.find?_singleton, hname, beq_self_eq_true, if_pos rfl]
    exact .some hkey
  | false =>
    have hne : (key.name == other.name) = false :=
      beq_eq_false_iff_ne.mpr (Ne.symm (beq_eq_false_iff_ne.mp hbeq))
    rw [List.find?_singleton, hne, if_neg Bool.false_ne_true, Option.or_none]
    exact h other

theorem Recorded.known_or_new {earlier : List Key} {seen : List (String × Span)}
    (h : Recorded source file earlier seen) (key : Key) :
    (∃ first span, Draft.firstOf? earlier key = some first ∧ seen.lookup key.name = some span ∧
        first.IsAt source file span) ∨
      Draft.firstOf? earlier key = none ∧ seen.lookup key.name = none := by
  have hrel := h key
  generalize Draft.firstOf? earlier key = first? at hrel ⊢
  generalize seen.lookup key.name = span? at hrel ⊢
  cases hrel with
  | some hfirst => exact .inl ⟨_, _, rfl, rfl, hfirst⟩
  | none => exact .inr ⟨rfl, rfl⟩

/-- Among the repeats of a draft this is the one whose key stands first in the text. -/
structure Repeat.IsFirst (r : Repeat) (t : Draft) : Prop where
  hasRepeat : t.HasRepeat r
  first : ∀ r', t.HasRepeat r' → r' ≠ r → r'.key.place.length < r.key.place.length

variable (source file) in
/-- The action stops because a key is repeated. The error spans that key, and its note the first one. -/
def StopsAt (act : ReadM α) (s : Scanner) (r : Repeat) : Prop :=
  ∃ span first s', r.key.IsAt source file span ∧ r.first.IsAt source file first ∧
    act s = .error (.duplicateField r.key.name span first) s'

section Rules

variable {act : ReadM α} {f : α → ReadM β} {r : Repeat}

theorem StopsAt.bind (h : StopsAt source file act s r) : StopsAt source file (act >>= f) s r := by
  obtain ⟨span, first, s', hkey, hfirst, hact⟩ := h
  exact ⟨span, first, s', hkey, hfirst, bind_of_error hact⟩

theorem StopsAt.of_bind {a : α} {s' : Scanner} (hact : act s = .ok a s')
    (h : StopsAt source file (f a) s' r) : StopsAt source file (act >>= f) s r := by
  obtain ⟨span, first, s'', hkey, hfirst, hf⟩ := h
  exact ⟨span, first, s'', hkey, hfirst, by rw [bind_of_ok hact, hf]⟩

theorem StopsAt.onText (h : StopsAt source file act (.start source file) r) :
    ∃ span first, r.key.IsAt source file span ∧ r.first.IsAt source file first ∧
      ReadM.onText act source file = .error (.duplicateField r.key.name span first) := by
  obtain ⟨span, first, s', hkey, hfirst, hact⟩ := h
  exact ⟨span, first, hkey, hfirst, by rw [ReadM.onText, hact]⟩

end Rules

variable (source file levels) in
/-- The action reads drafts of so many levels. It stops at the first repeated key. -/
structure ReadsDrafts (act : ReadM Atom) : Prop where
  advances : ∀ {s}, Advances act s
  reaches : ∀ ⦃s input t rest⦄, SpellsDraft input t rest → t.value.nesting ≤ levels →
    t.repeats = [] → significant s.rest = significant input → Reaches act s t.value rest
  stopsAt : ∀ ⦃s input t rest r rs⦄, SpellsDraft input t rest → t.value.nesting ≤ levels →
    t.repeats = r :: rs → significant s.rest = significant input → s.IsIn source file →
    StopsAt source file act s r

namespace Atom

variable {inner : ReadM Atom} {opening : Span} {turns : Nat} {input after rest : List Char} {r : Repeat}
  {rs : List Repeat}

theorem readUntil_stopsAt (hinner : ReadsDrafts source file levels inner) {items : List Draft}
    (h : SpellsEach SpellsDraft input items rest) (hlevels : ∀ t ∈ items, t.value.nesting ≤ levels)
    (hrepeats : Draft.itemRepeats items = r :: rs) (hturns : (significant input).length < turns)
    (hs : significant s.rest = significant input) (hin : s.IsIn source file) :
    StopsAt source file (readUntil ']' "[" opening inner turns) s r := by
  induction h generalizing s turns with
  | nil => cases hrepeats
  | @cons input mid rest t items ht hitems ih =>
    cases turns with
    | zero => omega
    | succ turns =>
      obtain ⟨hhere, hlater⟩ := List.forall_mem_cons.mp hlevels
      obtain ⟨c, cs, hc, hfirst⟩ := ht.begins
      have hne : c ≠ ']' := by
        rintro rfl
        exact absurd hfirst (by decide)
      have hskip : s.skipIgnored.IsIn source file := hin.advanceBy _
      have hs' : significant s.skipIgnored.rest = significant input := by simpa using hs
      refine .of_bind (Token.peekInside_of_significant (hs.trans hc)) ?_
      rw [if_neg hne]
      cases hvalue : t.repeats with
      | cons r' rs' =>
        rw [Draft.itemRepeats, hvalue, List.cons_append] at hrepeats
        obtain ⟨rfl, -⟩ := List.cons.inj hrepeats
        exact (hinner.stopsAt ht hhere hvalue hs' hskip).bind
      | nil =>
        rw [Draft.itemRepeats, hvalue, List.nil_append] at hrepeats
        obtain ⟨s₁, hact, hs₁⟩ := hinner.reaches ht hhere hvalue hs'
        have hmid := ht.length_lt
        have hle := (ignored_significant mid).suffix.length_le
        have hin₁ := hskip.of_ok hinner.advances hact
        exact .of_bind hact (ih hlater hrepeats (by omega) hs₁ hin₁).bind

theorem readFields_stopsAt (hinner : ReadsDrafts source file levels inner)
    {fields : List (Key × Draft)} (h : SpellsDraftFields SpellsDraft input fields rest)
    (hlevels : ∀ field ∈ fields, field.2.value.nesting ≤ levels) {earlier : List Key}
    {seen : List (String × Span)} (hseen : Recorded source file earlier seen)
    (hrepeats : Draft.fieldRepeats earlier fields = r :: rs)
    (hturns : (significant input).length < turns) (hs : significant s.rest = significant input)
    (hin : s.IsIn source file) :
    StopsAt source file (readFields inner opening turns seen) s r := by
  induction h generalizing s turns seen earlier with
  | nil => cases hrepeats
  | @cons input colon start mid rest name t fields hname hcolon ht hfields ih =>
    cases turns with
    | zero => omega
    | succ turns =>
      obtain ⟨hhere, hlater⟩ := List.forall_mem_cons.mp hlevels
      obtain ⟨c, cs, hc, hfirst⟩ := hname.begins
      have hne : c ≠ '}' := by
        rintro rfl
        exact absurd hfirst (by decide)
      obtain ⟨s₁, hread, hs₁, hin₁, hspan⟩ := Token.name_isAt hname hs hin
      refine .of_bind (Token.peekInside_of_significant (hs.trans hc)) ?_
      rw [if_neg hne]
      refine .of_bind (a := s.skipIgnored) rfl (.of_bind hread (.of_bind (a := s₁) rfl ?_))
      rw [Draft.fieldRepeats] at hrepeats
      obtain ⟨first, span, hknown, hlookup, hfirst⟩ | ⟨hnew, hlookup⟩ :=
        hseen.known_or_new ⟨name, significant input⟩
      · rw [hknown] at hrepeats
        obtain ⟨rfl, -⟩ := List.cons.inj hrepeats
        simp only [hlookup]
        exact ⟨_, span, s₁, hspan, hfirst, rfl⟩
      -- A new key is noted for this object only: the objects in its value start without keys.
      rw [hnew] at hrepeats
      simp only [hlookup]
      obtain ⟨span, s₂, hlit, hs₂⟩ := Token.literal_of_cons ":" (s := s₁)
        (by rw [hs₁, (ignored_cons_iff (by decide)).mp hcolon]) (by rfl)
      have hin₂ := hin₁.of_ok (Token.literal_advances _) hlit
      refine .of_bind hlit ?_
      cases hvalue : t.repeats with
      | cons r' rs' =>
        rw [hvalue] at hrepeats
        obtain ⟨rfl, -⟩ := List.cons.inj hrepeats
        exact (hinner.stopsAt ht hhere hvalue (by rw [hs₂]) hin₂).bind
      | nil =>
        rw [hvalue] at hrepeats
        obtain ⟨s₃, hact, hs₃⟩ := hinner.reaches ht hhere hvalue (s := s₂) (by rw [hs₂])
        have hin₃ := hin₂.of_ok hinner.advances hact
        have hmid : (significant mid).length < turns := by
          have hstart := hname.length_lt_of_colon hcolon
          have hbelow := ht.length_lt.trans_le (ignored_significant start).suffix.length_le
          have hle := (ignored_significant mid).suffix.length_le
          omega
        exact .of_bind hact (ih hlater (hseen.concat hnew hspan) hrepeats hmid hs₃ hin₃).bind

theorem readList_stopsAt (hinner : ReadsDrafts source file levels inner) {items : List Draft}
    (hopen : significant s.rest = '[' :: input) (h : SpellsEach SpellsDraft input items rest)
    (hlevels : ∀ t ∈ items, t.value.nesting ≤ levels) (hrepeats : Draft.itemRepeats items = r :: rs)
    (hin : s.IsIn source file) : StopsAt source file (readList inner) s r := by
  obtain ⟨opening, s₁, hlit, hs₁⟩ := Token.literal_of_cons "[" hopen (by rfl)
  have hin₁ := hin.of_ok (Token.literal_advances _) hlit
  have hle := (ignored_significant s₁.rest).suffix.length_le
  refine .of_bind hlit (.of_bind (a := s₁) rfl ?_)
  rw [readItems_eq]
  exact (readUntil_stopsAt hinner h hlevels hrepeats (by rw [← hs₁]; omega) (by rw [hs₁]) hin₁).bind

theorem readObject_stopsAt (hinner : ReadsDrafts source file levels inner)
    {fields : List (Key × Draft)} (hopen : significant s.rest = '{' :: input)
    (h : SpellsDraftFields SpellsDraft input fields rest)
    (hlevels : ∀ field ∈ fields, field.2.value.nesting ≤ levels)
    (hrepeats : Draft.fieldRepeats [] fields = r :: rs) (hin : s.IsIn source file) :
    StopsAt source file (readObject inner) s r := by
  obtain ⟨opening, s₁, hlit, hs₁⟩ := Token.literal_of_cons "\x7b" hopen (by rfl)
  have hin₁ := hin.of_ok (Token.literal_advances _) hlit
  have hle := (ignored_significant s₁.rest).suffix.length_le
  refine .of_bind hlit (.of_bind (a := s₁) rfl ?_)
  exact (readFields_stopsAt hinner h hlevels .nil hrepeats (by rw [← hs₁]; omega) (by rw [hs₁])
    hin₁).bind

theorem readWithin_reaches_value {t : Draft} (h : SpellsDraft input t rest)
    (hlevels : t.value.nesting ≤ levels) (hrepeats : t.repeats = [])
    (hs : significant s.rest = significant input) :
    Reaches (readWithin limit levels) s t.value rest :=
  readWithin_reaches (h.spellsAtom (Draft.repeats_eq_nil_iff.mp hrepeats)) hlevels hs

theorem readWithin_readsDrafts (levels : Nat) :
    ReadsDrafts source file levels (readWithin limit levels) := by
  induction levels with
  | zero =>
    refine ⟨readWithin_advances, fun _ _ _ _ => readWithin_reaches_value, ?_⟩
    exact fun _ _ t _ _ _ _ hlevels => absurd t.value.nesting_pos (by omega)
  | succ levels ih =>
    refine ⟨readWithin_advances, fun _ _ _ _ => readWithin_reaches_value, ?_⟩
    intro s input t rest r rs h hlevels hrepeats hs hin
    have hskip : s.skipIgnored.IsIn source file := hin.advanceBy _
    rw [readWithin_succ]
    cases h with
    | scalar => cases hrepeats
    | list hopen hitems hclose =>
      have hhead := hs.trans ((ignored_cons_iff (by decide)).mp hopen)
      rw [Draft.value, nesting, Nat.add_le_add_iff_right, Draft.itemValues_eq_map,
        itemsNesting_le_iff, List.forall_mem_map] at hlevels
      exact .of_bind (Token.peek_of_significant hhead)
        (readList_stopsAt ih (by simpa using hhead) hitems hlevels hrepeats hskip)
    | object hopen hfields hclose =>
      have hhead := hs.trans ((ignored_cons_iff (by decide)).mp hopen)
      rw [Draft.value, nesting, Nat.add_le_add_iff_right, Draft.fieldValues_eq_map,
        fieldsNesting_le_iff, List.forall_mem_map] at hlevels
      exact .of_bind (Token.peek_of_significant hhead)
        (readObject_stopsAt ih (by simpa using hhead) hfields hlevels hrepeats hskip)

variable {options : ReadOptions} {t : Draft}

theorem parse_of_hasDistinctKeys (h : SpellsDraft source t rest) (hrest : Ignored rest [])
    (hdepth : t.value.nesting ≤ options.depth) (hkeys : t.HasDistinctKeys) :
    parse source options = .ok t.value :=
  parse_ok_iff.mpr ⟨rest, h.spellsAtom hkeys, hrest, hdepth⟩

theorem exists_isFirst (h : SpellsDraft source t rest) (hkeys : ¬t.HasDistinctKeys) :
    ∃ r rs, t.repeats = r :: rs ∧ r.IsFirst t := by
  rw [← Draft.repeats_eq_nil_iff] at hkeys
  obtain ⟨r, rs, hrs⟩ := List.exists_cons_of_ne_nil hkeys
  have hdecreasing := h.repeats_inOrder.decreasing
  rw [hrs] at hdecreasing
  refine ⟨r, rs, hrs, Draft.mem_repeats_iff.mp (hrs ▸ List.mem_cons_self), fun r' hr' hne => ?_⟩
  have hm := Draft.mem_repeats_iff.mpr hr'
  rw [hrs] at hm
  exact List.rel_of_pairwise_cons hdecreasing ((List.mem_cons.mp hm).resolve_left hne)

theorem parse_of_not_hasDistinctKeys (h : SpellsDraft source t rest)
    (hdepth : t.value.nesting ≤ options.depth) (hkeys : ¬t.HasDistinctKeys) :
    ∃ (r : Repeat) (span first : Span), r.IsFirst t ∧ r.key.IsAt source options.file span ∧
      r.first.IsAt source options.file first ∧
      parse source options = .error (.duplicateField r.key.name span first) := by
  obtain ⟨r, rs, hrs, hr⟩ := exists_isFirst h hkeys
  have hin : (Scanner.start source options.file).IsIn source options.file := ⟨0, rfl⟩
  have hstops : StopsAt source options.file (read options.depth) _ r :=
    (readWithin_readsDrafts options.depth).stopsAt h hdepth hrs (by rw [Scanner.rest_start]) hin
  obtain ⟨span, first, hkey, hfirst, hparse⟩ := (StopsAt.bind hstops).onText
  exact ⟨r, span, first, hr, hkey, hfirst, hparse⟩

/-- A text that is written like a value, except that keys may occur twice in an object, is read exactly
if they do not. If they do, the error is about the key that stands first in the text among those that
repeat an earlier key of the same object, and points at it and at the first key of that name in the object.
Otherwise every object has the fields that are written, in their order, and no field is put under a key
that the object has already, however the fields are collected. -/
theorem parse_draft (h : SpellsDraft source t rest) (hrest : Ignored rest [])
    (hdepth : t.value.nesting ≤ options.depth) :
    ((∃ e, parse source options = .error e) ↔ ¬t.HasDistinctKeys) ∧
    (¬t.HasDistinctKeys → ∃ (r : Repeat) (span first : Span), r.IsFirst t ∧
      r.key.IsAt source options.file span ∧ r.first.IsAt source options.file first ∧
      parse source options = .error (.duplicateField r.key.name span first)) ∧
    (t.HasDistinctKeys → parse source options = .ok t.value) ∧
    ∀ put, Keyed.PutsNewLast put → parseInto put source options = parse source options := by
  have hvalue := parse_of_hasDistinctKeys h hrest hdepth
  have herror := parse_of_not_hasDistinctKeys h hdepth
  refine ⟨⟨fun ⟨e, he⟩ hkeys => ?_, fun hkeys => ?_⟩, herror, hvalue, ?_⟩
  · rw [hvalue hkeys] at he
    cases he
  · obtain ⟨r, span, first, -, -, -, hparse⟩ := herror hkeys
    exact ⟨_, hparse⟩
  · exact fun put hput => parseInto_eq hput source options

/-- The key `a` of the outer object occurs in an inner one without harm, and its own repetition comes
after that of `c`. -/
theorem parse_draft_nested :
    let source := ['{', 'a', ':', '{', 'a', ':', 'X', '}', 'b', ':', '{', 'c', ':', 'X', ',', 'c', ':',
      'Y', '}', 'a', ':', 'Z', '}']
    ∃ t, SpellsDraft source t [] ∧ Ignored [] [] ∧ t.value.nesting ≤ 64 ∧ ¬t.HasDistinctKeys ∧
      ∃ (r : Repeat) (span first : Span), r.key.name = "c" ∧ r.IsFirst t ∧ r.key.IsAt source none span ∧
        r.first.IsAt source none first ∧
        parse source = .error (.duplicateField r.key.name span first) := by
  intro source
  have hname : ∀ (c d : Char) (rest : List Char), isName [c] = true → isNameContinue d = false →
      SpellsName (c :: d :: rest) (String.singleton c) (d :: rest) := by
    intro c d rest hc hd
    exact ⟨by simpa using hc, endsRun_cons.mpr hd, by simpa using .done _⟩
  have hvalue : ∀ (c d : Char) (rest : List Char), isEnumName [c] = true → isName [c] = true →
      isNameContinue d = false →
      SpellsDraft (c :: d :: rest) (.scalar (.enum (String.singleton c))) (d :: rest) := by
    intro c d rest henum hc hd
    exact .scalar (.enum (hname c d rest hc hd) (by simpa using henum)) rfl
  have hspelled : ∃ t, SpellsDraft source t [] ∧ t.value.nesting ≤ 64 ∧ ¬t.HasDistinctKeys := by
    refine ⟨.object _, .object (.done _) (.cons (hname _ _ _ (by decide) (by decide)) (.done _)
      (.object (.done _) (.cons (hname _ _ _ (by decide) (by decide)) (.done _)
        (hvalue _ _ _ (by decide) (by decide) (by decide)) (.nil _)) (.done _))
      (.cons (hname _ _ _ (by decide) (by decide)) (.done _)
        (.object (.done _) (.cons (hname _ _ _ (by decide) (by decide)) (.done _)
          (hvalue _ _ _ (by decide) (by decide) (by decide))
          (.cons ((hname _ _ _ (by decide) (by decide)).prepend (.space (by decide) (.done _)))
            (.done _) (hvalue _ _ _ (by decide) (by decide) (by decide)) (.nil _))) (.done _))
        (.cons (hname _ _ _ (by decide) (by decide)) (.done _)
          (hvalue _ _ _ (by decide) (by decide) (by decide)) (.nil _)))) (.done _), by decide, ?_⟩
    intro hkeys
    have hinner := hkeys _ (.field (.tail _ (.head _)) (.here _))
    exact absurd hinner (by decide)
  obtain ⟨t, hspelled, hdepth, hkeys⟩ := hspelled
  have hh := (@parse_draft source [] {} t hspelled (.done []) hdepth).2.1 hkeys
  obtain ⟨r, span, first, hr, hkey, hfirst, hparse⟩ := hh
  have hcause : (match parse source with
      | .error e => decide (e.cause = .duplicateField "c")
      | .ok _ => false) = true := by decide +kernel
  rw [hparse] at hcause
  have hc : r.key.name = "c" := Cause.duplicateField.inj (of_decide_eq_true hcause)
  exact ⟨t, hspelled, .done [], hdepth, hkeys, r, span, first, hc, hr, hkey, hfirst, hparse⟩

end Atom

end QueryDoc
