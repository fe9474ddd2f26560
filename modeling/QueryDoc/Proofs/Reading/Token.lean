import QueryDoc.Proofs.Grammar.Basic
import QueryDoc.Proofs.Reading.Basic
import QueryDoc.Proofs.Source.Stretch
import QueryDoc.Proofs.Source.Until
import QueryDoc.Reading.Token

/-! What the tokens read, in terms of the text: each lemma says what stands in the text if the
action succeeds, or what the action does when that stands there. -/

namespace QueryDoc

namespace Token

open ReadM

theorem peek?_eq (s : Scanner) : peek? s = .ok (significant s.rest).head? s.skipIgnored := by
  change EStateM.Result.ok s.skipIgnored.rest.head? s.skipIgnored = _
  rw [Scanner.rest_skipIgnored]

theorem peek_of_significant {s : Scanner} {expected : String} {c : Char} {cs : List Char}
    (h : significant s.rest = c :: cs) : peek expected s = .ok c s.skipIgnored := by
  rw [peek, bind_of_ok (peek?_eq s), h]
  rfl

theorem peekInside_of_significant {s : Scanner} {delimiter : String} {opening : Span} {c : Char}
    {cs : List Char} (h : significant s.rest = c :: cs) :
    peekInside delimiter opening s = .ok c s.skipIgnored := by
  rw [peekInside, bind_of_ok (peek?_eq s), h]
  rfl

theorem peek_ok {s s' : Scanner} {expected : String} {c : Char}
    (h : peek expected s = .ok c s') :
    s' = s.skipIgnored ∧ ∃ cs, significant s.rest = c :: cs := by
  cases hs : significant s.rest with
  | nil =>
    rw [peek, bind_of_ok (peek?_eq s), hs] at h
    cases h
  | cons d cs =>
    rw [peek_of_significant hs] at h
    cases h
    exact ⟨rfl, cs, rfl⟩

theorem peekInside_ok {s s' : Scanner} {delimiter : String} {opening : Span} {c : Char}
    (h : peekInside delimiter opening s = .ok c s') :
    s' = s.skipIgnored ∧ ∃ cs, significant s.rest = c :: cs := by
  cases hs : significant s.rest with
  | nil =>
    rw [peekInside, bind_of_ok (peek?_eq s), hs] at h
    cases h
  | cons d cs =>
    rw [peekInside_of_significant hs] at h
    cases h
    exact ⟨rfl, cs, rfl⟩

theorem passOver_cons (text : String) (c : Char) (cs : List Char) (s : Scanner) :
    passOver text (c :: cs) s =
      if s.peek? = some c then passOver text cs s.advance
      else .error (s.unexpected [text]) s := by
  rw [passOver]
  change (if s.peek? = some c then _ else _ : ReadM Unit) s = _
  split <;> rfl

theorem passOver_ok_iff {text : String} {cs : List Char} {s s' : Scanner} :
    passOver text cs s = .ok () s' ↔ cs <+: s.rest ∧ s' = s.advanceBy cs.length := by
  induction cs generalizing s with
  | nil =>
    change EStateM.Result.ok () s = _ ↔ _
    simp [Scanner.advanceBy, eq_comm]
  | cons c cs ih =>
    rw [passOver_cons]
    split
    · next hc =>
      obtain ⟨rest, hrest⟩ := List.head?_eq_some_iff.mp hc
      simp [ih, hrest, Scanner.advanceBy, List.cons_prefix_cons]
    · next hc =>
      constructor
      · intro h
        cases h
      · rintro ⟨⟨rest, hrest⟩, -⟩
        simp [Scanner.peek?, ← hrest] at hc

theorem literal_eq (text : String) (s : Scanner) :
    literal text s = match passOver text text.toList s.skipIgnored with
      | .ok _ s' => .ok (s'.spanFrom s.skipIgnored.position) s'
      | .error e s' => .error e s' := by
  change EStateM.bind (passOver text text.toList) (fun _ => _) s.skipIgnored = _
  unfold EStateM.bind
  cases passOver text text.toList s.skipIgnored <;> rfl

theorem literal_ok {text : String} {s s' : Scanner} {span : Span}
    (h : literal text s = .ok span s') : significant s.rest = text.toList ++ s'.rest := by
  rw [literal_eq] at h
  cases hp : passOver text text.toList s.skipIgnored with
  | error e t => simp [hp] at h
  | ok u t =>
    obtain ⟨⟨rest, hrest⟩, ht⟩ := passOver_ok_iff.mp hp
    simp only [hp, EStateM.Result.ok.injEq] at h
    obtain ⟨-, rfl⟩ := h
    rw [Scanner.rest_skipIgnored] at hrest
    simp [ht, ← hrest]

theorem literal_of_significant {text : String} {s : Scanner} {rest : List Char}
    (h : significant s.rest = text.toList ++ rest) :
    ∃ span s', literal text s = .ok span s' ∧ s'.rest = rest := by
  have hp : passOver text text.toList s.skipIgnored =
      .ok () (s.skipIgnored.advanceBy text.toList.length) :=
    passOver_ok_iff.mpr ⟨⟨rest, by simp [h]⟩, rfl⟩
  exact ⟨_, _, by rw [literal_eq, hp], by simp [h]⟩

/-- A literal of one character is marked by the span of the next character. -/
theorem literal_of_singleton (text : String) {s : Scanner} {c : Char} {rest : List Char}
    (h : significant s.rest = c :: rest) (htext : text.toList = [c]) :
    literal text s = .ok s.skipIgnored.nextSpan s.skipIgnored.advance := by
  have hrest : s.skipIgnored.rest = c :: rest := by rw [Scanner.rest_skipIgnored, h]
  have hend := isLineEnd_of_isSignificant (isSignificant_of_significant h)
  have hp : passOver text text.toList s.skipIgnored = .ok () s.skipIgnored.advance := by
    rw [htext, passOver_cons, Scanner.peek?, hrest, List.head?_cons, if_pos rfl]
    rfl
  rw [literal_eq, hp, ← Scanner.spanFrom_advance hrest hend]

theorem literal_of_rest (text : String) {s : Scanner} {c : Char} {rest : List Char}
    (hs : s.rest = c :: rest) (hc : isSignificant c = true) (htext : text.toList = [c]) :
    literal text s = .ok s.nextSpan s.advance := by
  rw [literal_of_singleton text (by rw [hs, significant_cons hc]) htext,
    Scanner.skipIgnored_eq_self hs hc]

theorem literal_of_cons (text : String) {s : Scanner} {c : Char} {rest : List Char}
    (h : significant s.rest = c :: rest) (htext : text.toList = [c]) :
    ∃ span s', literal text s = .ok span s' ∧ s'.rest = rest :=
  ⟨_, _, literal_of_singleton text h htext, by simp [h]⟩

theorem literal_of_ignored (text : String) {s : Scanner} {c : Char} {input rest : List Char}
    (h : Ignored input (c :: rest)) (hs : significant s.rest = significant input)
    (hc : isSignificant c = true) (htext : text.toList = [c]) :
    ∃ span s', literal text s = .ok span s' ∧ s'.rest = rest :=
  literal_of_cons text (hs.trans ((ignored_cons_iff hc).mp h)) htext

theorem ignored_of_literal {text : String} {s s' : Scanner} {span : Span}
    (h : literal text s = .ok span s') : Ignored s.rest (text.toList ++ s'.rest) :=
  literal_ok h ▸ ignored_significant s.rest

end Token

theorem isSignificant_of_isNameStart {c : Char} (h : isNameStart c = true) :
    isSignificant c = true := by
  simp only [isSignificant, Bool.not_eq_true', Bool.eq_false_iff]
  intro hc
  simp only [isSpace, Bool.or_eq_true, beq_iff_eq] at hc
  rcases hc with ((((((rfl | rfl) | rfl) | rfl) | rfl) | rfl) | rfl) <;>
    exact absurd h (by decide)

theorem isNameContinue_of_isNameStart {c : Char} (h : isNameStart c = true) :
    isNameContinue c = true := by
  simp only [isNameStart, isNameContinue, Char.isAlphanum, Bool.or_eq_true] at h ⊢
  rcases h with h | h
  · exact .inl (.inl h)
  · exact .inr h

theorem isName_cons_iff {c : Char} {cs : List Char} :
    isName (c :: cs) = true ↔ isNameStart c = true ∧ ∀ d ∈ cs, isNameContinue d = true := by
  simp [isName]

theorem isNameContinue_of_isName {cs : List Char} (h : isName cs = true) :
    ∀ c ∈ cs, isNameContinue c = true := by
  cases cs with
  | nil => simp
  | cons c cs =>
    have hh := isName_cons_iff.mp h
    exact List.forall_mem_cons.mpr ⟨isNameContinue_of_isNameStart hh.1, hh.2⟩

theorem exists_cons_of_isName {cs : List Char} (h : isName cs = true) :
    ∃ c ds, cs = c :: ds ∧ isNameStart c = true := by
  cases cs with
  | nil => cases h
  | cons c ds => exact ⟨c, ds, rfl, (isName_cons_iff.mp h).1⟩

theorem leadingName?_append {name rest : List Char} (hname : isName name = true)
    (hrest : EndsRun isNameContinue rest) : leadingName? (name ++ rest) = some name := by
  obtain ⟨c, ds, rfl, hc⟩ := exists_cons_of_isName hname
  have htake := takeWhile_append_of_endsRun (isNameContinue_of_isName hname) hrest
  rw [List.cons_append] at htake ⊢
  rw [leadingName?, if_pos hc, htake]

theorem leadingName?_eq_some {cs name : List Char} (h : leadingName? cs = some name) :
    isName name = true ∧ ∃ rest, cs = name ++ rest ∧ EndsRun isNameContinue rest := by
  cases cs with
  | nil => cases h
  | cons c cs =>
    rw [leadingName?] at h
    split at h
    · next hc =>
      cases h
      refine ⟨?_, _, List.takeWhile_append_dropWhile.symm, endsRun_dropWhile _ _⟩
      rw [List.takeWhile_cons_of_pos (isNameContinue_of_isNameStart hc), isName_cons_iff]
      exact ⟨hc, fun d hd => List.mem_takeWhile_imp hd⟩
    · cases h

theorem SpellsName.significant_eq {input rest : List Char} {name : String}
    (h : SpellsName input name rest) : significant input = name.toList ++ rest := by
  obtain ⟨c, ds, hname, hc⟩ := exists_cons_of_isName h.isName
  have hh := h.spelled
  rw [hname, List.cons_append] at hh ⊢
  exact (ignored_cons_iff (isSignificant_of_isNameStart hc)).mp hh

theorem SpellsName.begins {input rest : List Char} {name : String}
    (h : SpellsName input name rest) :
    ∃ c cs, significant input = c :: cs ∧ isNameStart c = true := by
  obtain ⟨c, ds, hname, hc⟩ := exists_cons_of_isName h.isName
  exact ⟨c, ds ++ rest, by rw [h.significant_eq, hname, List.cons_append], hc⟩

theorem spellsName_of_leadingName? {input : List Char} {name : List Char}
    (h : leadingName? (significant input) = some name) :
    ∃ rest, significant input = name ++ rest ∧ SpellsName input (String.ofList name) rest := by
  obtain ⟨hname, rest, hrest, hends⟩ := leadingName?_eq_some h
  have hlist : (String.ofList name).toList = name := String.toList_ofList
  refine ⟨rest, hrest, ⟨by rwa [hlist], hends, ?_⟩⟩
  rw [hlist, ← hrest]
  exact ignored_significant input

theorem SpellsName.leadingName? {input rest : List Char} {name : String}
    (h : SpellsName input name rest) : leadingName? (significant input) = some name.toList := by
  rw [h.significant_eq]
  exact leadingName?_append h.isName h.ends

theorem SpellsName.prepend {input mid rest : List Char} {name : String}
    (h : SpellsName mid name rest) (hm : Ignored input mid) : SpellsName input name rest :=
  ⟨h.isName, h.ends, hm.trans h.spelled⟩

namespace Token

open ReadM

theorem name?_of_spells {s : Scanner} {input rest : List Char} {n : String}
    (h : SpellsName input n rest) (hs : significant s.rest = significant input) :
    ∃ s', name? s = .ok (some n) s' ∧ s'.rest = rest := by
  obtain ⟨c, ds, hname, hc⟩ := exists_cons_of_isName h.isName
  have hsig : s.skipIgnored.rest = n.toList ++ rest := by
    rw [Scanner.rest_skipIgnored, hs, h.significant_eq]
  have hhead : (significant s.rest).head? = some c := by
    rw [hs, h.significant_eq, hname]
    rfl
  have hcont := isNameContinue_of_isName h.isName
  refine ⟨s.skipIgnored.skipRun isNameContinue, ?_, ?_⟩
  · rw [name?, bind_of_ok (peek?_eq s), hhead]
    simp only [hc, if_true]
    change EStateM.Result.ok (some (String.ofList (s.skipIgnored.rest.takeWhile _))) _ = _
    rw [hsig, takeWhile_append_of_endsRun hcont h.ends, String.ofList_toList]
  · rw [Scanner.rest_skipRun, hsig, dropWhile_append_of_endsRun hcont h.ends]

theorem name?_of_not_isNameStart {s : Scanner}
    (h : ∀ c ∈ (significant s.rest).head?, isNameStart c = false) :
    name? s = .ok none s.skipIgnored := by
  rw [name?, bind_of_ok (peek?_eq s)]
  cases hs : (significant s.rest).head? with
  | none => rfl
  | some c => simp [h c hs]; rfl

theorem name?_ok {s s' : Scanner} {n? : Option String} (h : name? s = .ok n? s') :
    (∃ n, n? = some n ∧ SpellsName s.rest n s'.rest) ∨
    (n? = none ∧ s' = s.skipIgnored ∧
      ∀ c ∈ (significant s.rest).head?, isNameStart c = false) := by
  by_cases hstart : ∀ c ∈ (significant s.rest).head?, isNameStart c = false
  · rw [name?_of_not_isNameStart hstart] at h
    cases h
    exact .inr ⟨rfl, rfl, hstart⟩
  · simp only [Option.mem_def, not_forall, Bool.not_eq_false] at hstart
    obtain ⟨c, hhead, hc⟩ := hstart
    obtain ⟨cs, hcs⟩ := List.head?_eq_some_iff.mp hhead
    have hlead : leadingName? (significant s.rest) =
        some ((significant s.rest).takeWhile isNameContinue) := by
      rw [hcs, leadingName?, if_pos hc]
    obtain ⟨rest, -, hspells⟩ := spellsName_of_leadingName? hlead
    obtain ⟨t, ht, hrest⟩ := name?_of_spells hspells rfl
    rw [ht] at h
    cases h
    exact .inl ⟨_, rfl, hrest ▸ hspells⟩

theorem name_of_spells {s : Scanner} {input rest : List Char} {n : String}
    (h : SpellsName input n rest) (hs : significant s.rest = significant input) :
    ∃ s', name s = .ok n s' ∧ s'.rest = rest := by
  obtain ⟨c, ds, hname, -⟩ := exists_cons_of_isName h.isName
  have hsig : significant s.rest = c :: (ds ++ rest) := by
    rw [hs, h.significant_eq, hname]
    rfl
  obtain ⟨s', hs', hrest⟩ := name?_of_spells (s := s.skipIgnored) h (by simpa using hs)
  exact ⟨s', by rw [name, bind_of_ok (peek_of_significant hsig), bind_of_ok hs']; rfl, hrest⟩

theorem name_ok {s s' : Scanner} {n : String} (h : name s = .ok n s') :
    SpellsName s.rest n s'.rest := by
  rw [name] at h
  obtain ⟨c, s₁, hpeek, h⟩ := bind_ok_iff.mp h
  obtain ⟨rfl, -⟩ := peek_ok hpeek
  obtain ⟨n?, s₂, hname, h⟩ := bind_ok_iff.mp h
  rcases name?_ok hname with ⟨m, rfl, hspells⟩ | ⟨rfl, -, -⟩
  · cases h
    exact hspells.prepend s.ignored_skipIgnored
  · cases h

theorem keyword_eq (word : String) (s : Scanner) :
    keyword word s = match leadingName? (significant s.rest) with
      | none => failWith (·.unexpected [word]) s.skipIgnored
      | some found =>
        if found = word.toList then literal word s.skipIgnored
        else failWith (fun t => .wrongKeyword word.toList found
          (t.spanFrom s.skipIgnored.position)) (s.skipIgnored.skipRun isNameContinue) := by
  rw [← Scanner.rest_skipIgnored]
  change (match s.skipIgnored.name? with
    | none => failWith (·.unexpected [word])
    | some found =>
      if found = word.toList then literal word
      else do
        set (s.skipIgnored.skipRun isNameContinue)
        failWith fun t => .wrongKeyword word.toList found
          (t.spanFrom s.skipIgnored.position) : ReadM Span) s.skipIgnored = _
  rw [Scanner.name?]
  cases leadingName? s.skipIgnored.rest with
  | none => rfl
  | some found =>
    by_cases h : found = word.toList
    · simp only [h, if_true]
    · simp only [h, if_false]
      rfl

theorem keyword_of_spells {s : Scanner} {input rest : List Char} {word : String}
    (h : SpellsName input word rest) (hs : significant s.rest = significant input) :
    ∃ span s', keyword word s = .ok span s' ∧ s'.rest = rest := by
  obtain ⟨span, s', hlit, hrest⟩ :=
    literal_of_significant (s := s.skipIgnored)
      (by rw [Scanner.rest_skipIgnored, significant_significant, hs, h.significant_eq])
  exact ⟨span, s', by rw [keyword_eq, hs, h.leadingName?]; simpa using hlit, hrest⟩

theorem keyword_ok {s s' : Scanner} {word : String} {span : Span}
    (h : keyword word s = .ok span s') : SpellsName s.rest word s'.rest := by
  rw [keyword_eq] at h
  cases hlead : leadingName? (significant s.rest) with
  | none =>
    rw [hlead] at h
    cases h
  | some found =>
    rw [hlead] at h
    dsimp only at h
    split at h
    · next he =>
      obtain ⟨rest, hrest, hspells⟩ := spellsName_of_leadingName? hlead
      have hlit := literal_ok h
      rw [Scanner.rest_skipIgnored, significant_significant, hrest, he] at hlit
      rw [he, String.ofList_toList] at hspells
      exact List.append_cancel_left hlit ▸ hspells
    · cases h

theorem string_of_literal {s s₁ : Scanner} {span : Span} (h : literal "\"" s = .ok span s₁) :
    string s =
      if '"' ∈ s₁.rest then
        .ok (String.ofList (s₁.run (· != '"'))) (s₁.skipRun (· != '"')).advance
      else .error (.unterminatedString span) s₁ := by
  have hget : (get : ReadM Scanner) s₁ = .ok s₁ s₁ := rfl
  rw [string, bind_of_ok h, bind_of_ok hget, s₁.until?_eq (d := '"') (by decide) (by decide)]
  by_cases hmem : '"' ∈ s₁.rest
  · rw [if_pos hmem, if_pos hmem]
    rfl
  · rw [if_neg hmem, if_neg hmem]
    rfl

/-- A string that is ended is passed over, and nothing else but the ignored input before it. -/
theorem string_of_quoted {s : Scanner} {text rest : List Char}
    (h : significant s.rest = '"' :: (text ++ '"' :: rest)) (htext : '"' ∉ text) :
    string s = .ok (String.ofList text) (s.skipIgnored.advanceBy (text.length + 2)) := by
  have hlit := literal_of_singleton "\"" h (by rfl)
  have hrest : s.skipIgnored.advance.rest = text ++ '"' :: rest := by simp [h]
  have hall : ∀ c ∈ text, (c != '"') = true := by
    intro c hc
    simpa using fun he : c = '"' => htext (he ▸ hc)
  have hrun : s.skipIgnored.advance.run (· != '"') = text := by
    rw [Scanner.run, hrest, takeWhile_append_of_endsRun hall (endsRun_cons.mpr (by decide))]
  have hmem : '"' ∈ s.skipIgnored.advance.rest := by
    rw [hrest]
    exact List.mem_append_right text List.mem_cons_self
  have hmove : s.skipIgnored.advanceBy (text.length + 2) =
      (s.skipIgnored.advance.advanceBy text.length).advance :=
    s.skipIgnored.advance.advanceBy_add text.length 1
  rw [string_of_literal hlit, if_pos hmem, Scanner.skipRun, hrun, hmove]

theorem string_of_rest {s : Scanner} {text rest : List Char}
    (hs : s.rest = '"' :: (text ++ '"' :: rest)) (htext : '"' ∉ text) :
    string s = .ok (String.ofList text) (s.advanceBy (text.length + 2)) := by
  rw [string_of_quoted (by rw [hs, significant_cons (by decide)]) htext,
    Scanner.skipIgnored_eq_self hs (by decide)]

theorem string_of_rest_unterminated {s : Scanner} {after : List Char} (hs : s.rest = '"' :: after)
    (hafter : '"' ∉ after) :
    string s = .error (.unterminatedString s.nextSpan) s.advance := by
  rw [string_of_literal (literal_of_rest "\"" hs (by decide) (by rfl)),
    if_neg (by rwa [Scanner.rest_advance, hs, List.tail_cons])]

theorem string_of_significant {s : Scanner} {text : String} {rest : List Char}
    (h : significant s.rest = '"' :: (text.toList ++ '"' :: rest)) (htext : '"' ∉ text.toList) :
    ∃ s', string s = .ok text s' ∧ s'.rest = rest :=
  ⟨_, by rw [string_of_quoted h htext, String.ofList_toList], Scanner.rest_past_enclosed h⟩

theorem string_ok {s s' : Scanner} {text : String} (h : string s = .ok text s') :
    significant s.rest = '"' :: (text.toList ++ '"' :: s'.rest) ∧ '"' ∉ text.toList := by
  obtain ⟨span, s₁, hlit, -⟩ := bind_ok_iff.mp h
  rw [string_of_literal hlit] at h
  split at h
  · next hmem =>
    cases h
    obtain ⟨rest, hrest⟩ := Scanner.exists_rest_skipRun hmem
    have hsplit := s₁.run_append_rest_skipRun (· != '"')
    rw [hrest] at hsplit
    rw [String.toList_ofList, Scanner.rest_advance, hrest, List.tail_cons, hsplit]
    refine ⟨literal_ok hlit, fun hm => ?_⟩
    exact absurd (List.mem_takeWhile_imp hm) (by decide)
  · cases h

theorem finish_ok_iff {s s' : Scanner} :
    finish s = .ok () s' ↔ s' = s.skipIgnored ∧ significant s.rest = [] := by
  rw [finish, bind_of_ok (peek?_eq s)]
  cases hs : significant s.rest with
  | nil =>
    change EStateM.Result.ok () s.skipIgnored = _ ↔ _
    simp [eq_comm]
  | cons c cs =>
    change EStateM.Result.error _ _ = _ ↔ _
    simp

/-- A text is read as a whole if what is read leaves nothing but ignored input. -/
theorem onText_finish_ok_iff {α : Type} {act : ReadM α} {spells : List Char → α → List Char → Prop}
    {source : List Char} {file : Option String} {a : α} (hsound : Sound act spells)
    (hreaches : ∀ rest, spells source a rest → significant rest = [] →
      Reaches act (.start source file) a rest) :
    onText (do let a ← act; finish; return a) source file = .ok a ↔
      ∃ rest, spells source a rest ∧ Ignored rest [] := by
  rw [onText_ok_iff]
  constructor
  · rintro ⟨s', h⟩
    obtain ⟨b, s₁, hact, h⟩ := bind_ok_iff.mp h
    obtain ⟨u, s₂, hfinish, h⟩ := bind_ok_iff.mp h
    obtain ⟨rfl, rfl⟩ := pure_ok_iff.mp h
    obtain ⟨rest, hspells, hrest⟩ := hsound hact
    obtain ⟨-, hend⟩ := finish_ok_iff.mp hfinish
    exact ⟨rest, by simpa using hspells, hrest.trans (ignored_nil_iff.mpr hend)⟩
  · rintro ⟨rest, hspells, hrest⟩
    have hend := ignored_nil_iff.mp hrest
    obtain ⟨s₁, hact, hs₁⟩ := hreaches rest hspells hend
    have hfinish := finish_ok_iff.mpr ⟨rfl, hs₁.trans hend⟩
    exact ⟨s₁.skipIgnored, by rw [bind_of_ok hact, bind_of_ok hfinish]; rfl⟩

end Token

end QueryDoc
