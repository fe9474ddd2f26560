import QueryDoc.Proofs.Completion.Value

/-! Variable definitions, selection sets and operations that lack their end. A selection set is
completed from the scan of its inside: a line end, the quote of an open string, and a brace for each one
that is open. -/

namespace QueryDoc

open ReadM

namespace VariableDefinition

variable {limit : Nat} {s s' : Scanner} {e : ReadError}

/-- What follows the name of a variable. -/
def SpellsTyped (limit : Nat) (input : List Char) (t : TypeRef) (value : Option Atom)
    (rest : List Char) : Prop :=
  ∃ type default, Ignored input (':' :: type) ∧ SpellsType type t default ∧
    SpellsDefault default value rest ∧ t.nesting ≤ limit ∧ ∀ a ∈ value, a.nesting ≤ limit

theorem spellsTyped_of_ignored {input after : List Char} (hafter : EndsVariable after)
    (h : Ignored input (':' :: 'T' :: after)) :
    SpellsTyped (limit + 1) input (.named "T") none after := by
  have hname : SpellsName ('T' :: after) "T" after :=
    spellsName_of_ignored (by decide) hafter (.done _)
  exact ⟨'T' :: after, after, h, .named hname, .absent after, by simp [TypeRef.nesting], by simp⟩

theorem SpellsTyped.spellsVariable {input start colon rest : List Char} {name : String} {t : TypeRef}
    {value : Option Atom} (hdollar : Ignored input ('$' :: start))
    (hname : SpellsName start name colon) (h : SpellsTyped limit colon t value rest)
    (hrest : EndsVariable rest) : ∃ v, SpellsVariable input v rest ∧ v.nesting ≤ limit := by
  obtain ⟨type, default, hcolon, ht, hvalue, htlevels, hvlevels⟩ := h
  exact ⟨_, .mk hdollar hname hcolon ht hvalue hrest.2, nesting_le_iff.mpr ⟨htlevels, hvlevels⟩⟩

theorem spellsVariable_of_ignored {input after : List Char} (hafter : EndsVariable after)
    (h : Ignored input ("$a:T".toList ++ after)) :
    ∃ v, SpellsVariable input v after ∧ v.nesting ≤ limit + 1 := by
  have hname : SpellsName ("a:T".toList ++ after) "a" (":T".toList ++ after) :=
    spellsName_of_ignored (by decide) (endsVariable_cons (by decide) (by decide) (by decide) _)
      (.done _)
  exact (spellsTyped_of_ignored hafter (.done _)).spellsVariable h hname hafter

theorem readDefault_completes (h : readDefault limit s = .error e s') (he : e.isIncomplete = true) :
    Completes s.rest fun i r =>
      ∃ start a, Ignored i ('=' :: start) ∧ SpellsAtom start a r ∧ a.nesting ≤ limit + 1 := by
  have hskip := s.ignored_skipIgnored
  rw [readDefault, bind_of_ok (Token.peek?_eq s)] at h
  split at h
  · next hmark =>
    rcases bind_error_iff.mp h with h | ⟨span, s₁, hlit, h⟩
    · have hend := Token.literal_error rfl h he
      rw [Scanner.rest_skipIgnored, significant_significant] at hend
      rw [hend] at hmark
      cases hmark
    have heq := hskip.trans (Token.ignored_of_literal hlit)
    rcases bind_error_iff.mp h with h | ⟨a, s₂, -, h⟩
    · refine (Atom.readWithin_completes h he).imp [] (fun _ hafter => hafter) ?_
      rintro more after hmore - ⟨a, ha, hlevels⟩
      exact ⟨s₁.rest ++ more, a, heq.extend hmore, ha, hlevels⟩
    · cases h
  · cases h

theorem refuseDirectives_error {v : VariableDefinition} (h : refuseDirectives v s = .error e s') :
    e.isIncomplete = false := by
  rw [refuseDirectives, bind_of_ok (Token.peek?_eq s)] at h
  split at h
  · cases h
    rfl
  · cases h

theorem read_completes (h : read limit s = .error e s') (he : e.isIncomplete = true) :
    Completes s.rest fun i r => ∃ v, SpellsVariable i v r ∧ v.nesting ≤ limit + 1 := by
  rw [read_eq] at h
  rcases bind_error_iff.mp h with h | ⟨dollar, s₁, hdollar, h⟩
  · exact .of_end (Token.literal_error rfl h he) "$a:T".toList
      fun _ _ hafter hinput => spellsVariable_of_ignored hafter hinput
  have hdollar' := Token.ignored_of_literal hdollar
  rcases bind_error_iff.mp h with h | ⟨name, s₂, hname, h⟩
  · have hcomplete : Completes s₁.rest fun i r => ∃ name colon, SpellsName i name colon ∧
        SpellsTyped (limit + 1) colon (.named "T") none r := by
      refine .of_end (Token.name_error h he) "a:T".toList fun input after hafter hinput => ?_
      exact ⟨"a", _, spellsName_of_ignored (by decide) (endsVariable_cons (by decide) (by decide)
        (by decide) _) hinput, spellsTyped_of_ignored hafter (.done _)⟩
    refine hcomplete.imp [] (fun _ hafter => hafter) ?_
    rintro more after hmore hafter ⟨name, colon, hname, htyped⟩
    exact htyped.spellsVariable (hdollar'.extend hmore) hname hafter
  -- The dollar sign and the name are there, and what follows them is completed.
  have hname' := Token.name_ok hname
  have hlast (htyped : Completes s₂.rest fun i r => ∃ t value, SpellsTyped (limit + 1) i t value r) :
      Completes s.rest fun i r => ∃ v, SpellsVariable i v r ∧ v.nesting ≤ limit + 1 := by
    refine htyped.imp [] (fun _ hafter => hafter) ?_
    rintro more after hmore hafter ⟨t, value, htyped⟩
    exact htyped.spellsVariable (hdollar'.extend hmore) (hname'.extend hmore) hafter
  refine hlast ?_
  rcases bind_error_iff.mp h with h | ⟨colon, s₃, hcolon, h⟩
  · obtain ⟨d, hlit, hd⟩ := withHelp_error h
    refine .of_end (Token.literal_error rfl hlit (hd.trans he)) ":T".toList
      fun input after hafter hinput => ⟨_, _, spellsTyped_of_ignored hafter hinput⟩
  have hcolon' := Token.ignored_of_literal (withHelp_ok_iff.mp hcolon)
  rcases bind_error_iff.mp h with h | ⟨t, s₄, ht, h⟩
  · refine (TypeRef.readWithin_completes h he).imp [] (fun _ hafter => hafter) ?_
    rintro more after hmore - ⟨t, ht, hlevels⟩
    exact ⟨t, none, s₃.rest ++ more, after, hcolon'.extend hmore, ht, .absent after, by omega,
      by simp⟩
  obtain ⟨mid, ⟨htype, hlevels⟩, hmid⟩ := TypeRef.readWithin_sound limit limit ht
  rcases bind_error_iff.mp h with h | ⟨value, s₅, -, h⟩
  · refine (readDefault_completes h he).imp [] (fun _ hafter => hafter) ?_
    rintro more after hmore - ⟨start, a, heq, ha, halevels⟩
    have hvalue : SpellsDefault (mid ++ more) (some a) after :=
      .given ((hmid.extend hmore).trans heq) ha
    exact ⟨t, some a, s₃.rest ++ more, mid ++ more, hcolon'.extend hmore, htype.extend hmore, hvalue,
      by omega, by simpa using halevels⟩
  · rw [refuseDirectives_error h] at he
    cases he

theorem sound_succ (limit : Nat) :
    Sound (read limit) fun i v r => SpellsVariable i v r ∧ v.nesting ≤ limit + 1 := by
  intro s v s' h
  obtain ⟨rest, ⟨hspells, hlevels⟩, hrest⟩ := read_sound limit h
  exact ⟨rest, ⟨hspells, by omega⟩, hrest⟩

theorem readList_completes (hs : significant s.rest ≠ []) (h : readList limit s = .error e s')
    (he : e.isIncomplete = true) :
    Completes s.rest fun i r =>
      ∃ vs, SpellsVariables i vs r ∧ ∀ v ∈ vs, v.nesting ≤ limit + 1 := by
  rcases bind_error_iff.mp h with h | ⟨opening, s₁, hopen, h⟩
  · exact absurd (Token.literal_error rfl h he) hs
  have hopen' := Token.ignored_of_literal hopen
  -- The row of definitions is completed, and a closing parenthesis does not come first.
  have hlast (hrow : Completes s₁.rest fun i r => ∃ vs rest,
      ((significant r).head? = some ')' → vs ≠ []) ∧
      SpellsEach (fun i v r => SpellsVariable i v r ∧ v.nesting ≤ limit + 1) i vs rest ∧
        Ignored rest r) :
      Completes s.rest fun i r =>
        ∃ vs, SpellsVariables i vs r ∧ ∀ v ∈ vs, v.nesting ≤ limit + 1 := by
    refine hrow.imp [')'] (fun after _ => ?_) ?_
    · exact endsVariable_cons (by decide) (by decide) (by decide) after
    · rintro more after hmore - ⟨vs, rest, hvs, heach, hrest⟩
      obtain ⟨hspells, hlevels⟩ := spellsEach_and_iff.mp heach
      obtain ⟨v, vs, rfl⟩ := List.exists_cons_of_ne_nil (hvs rfl)
      exact ⟨v :: vs, .given (hopen'.extend hmore) hspells hrest, hlevels⟩
  rcases bind_error_iff.mp h with h | ⟨c, s₂, hpeek, h⟩
  · refine hlast (.of_end (Token.peekInside_error h) "$a:T".toList fun i r hr hi => ?_)
    obtain ⟨v, hv⟩ := spellsVariable_of_ignored hr hi
    exact ⟨[v], r, by simp, .cons hv (.nil r), .done r⟩
  obtain ⟨rfl, cs, hcs⟩ := Token.peekInside_ok hpeek
  split at h
  · cases h
    cases he
  next hne =>
  have hskip := s₁.ignored_skipIgnored
  rcases bind_error_iff.mp h with h | ⟨here, s₂, hget, h⟩
  · cases h
  cases hget
  rcases bind_error_iff.mp h with h | ⟨vs, s₂, hvs, h⟩
  · rw [readEach_eq] at h
    have hrow := readUntil_completes (sound_succ limit) (fun _ _ _ _ hm h => ⟨h.1.prepend hm, h.2⟩)
      (fun _ _ _ h => h.1.length_lt) ?_ (fun _ _ _ _ hmore hnext h => ⟨h.1.extend hmore hnext, h.2⟩)
      (fun _ _ _ h he => read_completes h he) ?_ h he
    · refine hlast (hrow.imp [] (fun _ hafter => hafter) ?_)
      rintro more after hmore - ⟨vs, rest, heach, hrest⟩
      obtain ⟨rest', heach', hrest'⟩ := heach.prepend
        (fun _ _ _ _ hm h => ⟨h.1.prepend hm, h.2⟩) (hskip.extend hmore)
      refine ⟨vs, rest', fun hclose => ?_, heach', hrest'.trans hrest⟩
      rintro rfl
      have hafter : Ignored (s₁.rest ++ more) after := by
        cases heach' with
        | nil => exact hrest'.trans hrest
      rw [← significant_eq_of_ignored hafter, significant_append hcs] at hclose
      exact hne (Option.some.inj hclose)
    · rintro i v r ⟨h, -⟩
      obtain ⟨cs, hcs⟩ := h.begins
      simp [hcs]
    · simp
  rcases bind_error_iff.mp h with h | ⟨closing, s₃, -, h⟩
  · rw [readEach_eq] at hvs
    obtain ⟨ds, hds⟩ := readUntil_closing hvs
    have hend := Token.literal_error rfl h he
    simp [hds] at hend
  · cases h

end VariableDefinition

namespace BodyScan

theorem run_braces (d : Nat) : run ⟨.code, d + 1⟩ (List.replicate d '}') = some ⟨.code, 1⟩ := by
  induction d with
  | zero => rfl
  | succ d ih => rw [List.replicate_succ, run_close, ih]

/-- A scan that has not come to its end does so on the next line. -/
theorem exists_run_next_line (scan : BodyScan) (hdepth : 0 < scan.depth) :
    ∃ more, scan.run ('\n' :: more) = some ⟨.code, 1⟩ := by
  obtain ⟨place, depth⟩ := scan
  obtain ⟨d, rfl⟩ := Nat.exists_eq_add_of_le' hdepth
  have hcode : run ⟨.code, d + 1⟩ ('\n' :: List.replicate d '}') = some ⟨.code, 1⟩ := by
    rw [run_plain (by decide), run_braces]
  cases place with
  | code => exact ⟨_, hcode⟩
  | string => exact ⟨'"' :: List.replicate d '}', run_braces d⟩
  | comment => exact ⟨_, by rw [run_line_end (by decide), run_braces]⟩

end BodyScan

namespace SelectionSet

variable {opening : Span} {s s' : Scanner} {e : ReadError}

/-- The inside of a selection set that is not closed goes on to the end of the text. -/
theorem exists_run_of_skipBody_error {turns depth : Nat} (hturns : s.rest.length < turns)
    (h : skipBody opening turns depth s = .error e s') :
    ∃ scan, BodyScan.run ⟨.code, depth + 1⟩ s.rest = some scan := by
  cases hrun : BodyScan.run ⟨.code, depth + 1⟩ s.rest with
  | some scan => exact ⟨scan, rfl⟩
  | none =>
    obtain ⟨body, rest, hs, hbody⟩ :=
      BodyScan.exists_brace_of_run_eq_none (Nat.succ_pos depth) hrun
    have hlength : body.length < turns := by
      rw [hs, List.length_append] at hturns
      omega
    rw [skipBody_of_run hbody hlength hs] at h
    cases h

theorem read_completes (h : read s = .error e s') (he : e.isIncomplete = true) :
    Completes s.rest fun i r => ∃ body, Ignored i ('{' :: (body ++ '}' :: r)) ∧ Balanced body := by
  rcases bind_error_iff.mp h with h | ⟨opening, s₁, hopen, h⟩
  · exact .of_end (Token.literal_error rfl h he) ['{', '}'] fun _ _ _ hi => ⟨[], hi, .nil⟩
  have hopen' := Token.ignored_of_literal hopen
  rcases bind_error_iff.mp h with h | ⟨here, s₂, hget, h⟩
  · cases h
  cases hget
  rcases bind_error_iff.mp h with h | ⟨u, s₂, hbody, h⟩
  · obtain ⟨scan, hrun⟩ := exists_run_of_skipBody_error (Nat.lt_succ_self _) h
    have hdepth := BodyScan.depth_pos_of_run Nat.zero_lt_one hrun
    obtain ⟨more, hmore⟩ := scan.exists_run_next_line hdepth
    refine ⟨more ++ ['}'], fun after _ => ⟨s₁.rest ++ '\n' :: more, ?_, ?_⟩⟩
    · have hline : EndsRun (!isLineEnd ·) ('\n' :: (more ++ ['}'] ++ after)) :=
        endsRun_cons.mpr (by decide)
      have hh := hopen'.extend hline
      simpa using hh
    · rw [balanced_iff_run, BodyScan.run_append, hrun]
      exact hmore
  rcases bind_error_iff.mp h with h | ⟨there, s₃, hget, h⟩
  · cases h
  cases hget
  rcases bind_error_iff.mp h with h | ⟨closing, s₃, -, h⟩
  · obtain ⟨body, rest, -, hrest, -⟩ := skipBody_ok (Nat.lt_succ_self _) hbody
    have hend := Token.literal_error rfl h he
    rw [hrest, significant_cons (by decide)] at hend
    cases hend
  · cases h

end SelectionSet

namespace Operation

variable {limit : Nat} {s s' : Scanner} {e : ReadError}

theorem readKind_error (h : readKind s = .error e s') : e.isIncomplete = false := by
  rw [readKind_eq] at h
  cases hlead : leadingName? s.rest with
  | none =>
    rw [hlead] at h
    cases h
  | some word =>
    rw [hlead] at h
    dsimp only at h
    split at h
    · cases h
      rfl
    · cases hword : OperationKind.ofKeyword? (String.ofList word) with
      | none =>
        rw [hword] at h
        cases h
      | some kind =>
        rw [hword] at h
        rcases bind_error_iff.mp h with h | ⟨span, s₁, -, h⟩
        · obtain ⟨hname, rest, hrest, -⟩ := leadingName?_eq_some hlead
          obtain ⟨c, cs, rfl, hc⟩ := exists_cons_of_isName hname
          by_contra hincomplete
          have hend := Token.keyword_error h (by simpa using hincomplete)
          rw [hrest, List.cons_append, significant_cons (isSignificant_of_isNameStart hc)] at hend
          cases hend
        · cases h

theorem readVariables_completes (h : readVariables limit s = .error e s')
    (he : e.isIncomplete = true) :
    Completes s.rest fun i r => ∃ vs rest, SpellsVariables i vs rest ∧ Ignored rest r ∧
      ∀ v ∈ vs, v.nesting ≤ limit + 1 := by
  have hskip := s.ignored_skipIgnored
  rw [readVariables, bind_of_ok (Token.peek?_eq s)] at h
  split at h
  · next hparen =>
    have hne : significant s.skipIgnored.rest ≠ [] := by
      intro hnil
      rw [Scanner.rest_skipIgnored, significant_significant] at hnil
      rw [hnil] at hparen
      cases hparen
    refine (VariableDefinition.readList_completes hne h he).imp [] (fun _ hafter => hafter) ?_
    rintro more after hmore - ⟨vs, hvs, hlevels⟩
    obtain ⟨rest, hvs', hrest⟩ := hvs.prepend (hskip.extend hmore)
    exact ⟨vs, rest, hvs', hrest, hlevels⟩
  · cases h

theorem readEnd_completes {kind : OperationKind} {name : Option String}
    {vs : List VariableDefinition} (h : readEnd kind name vs s = .error e s')
    (he : e.isIncomplete = true) :
    Completes s.rest fun i r => ∃ body, Ignored i ('{' :: (body ++ '}' :: r)) ∧ Balanced body := by
  have hskip := s.ignored_skipIgnored
  rw [readEnd, bind_of_ok (Token.peek?_eq s)] at h
  split at h
  · cases h
    cases he
  rcases bind_error_iff.mp h with h | ⟨set, s₁, -, h⟩
  · refine (SelectionSet.read_completes h he).imp [] (fun _ hafter => hafter) ?_
    rintro more after hmore - ⟨body, hopen, hbody⟩
    exact ⟨body, (hskip.extend hmore).trans hopen, hbody⟩
  · cases h

theorem read_completes (h : read limit s = .error e s') (he : e.isIncomplete = true) :
    Completes s.rest fun i r => ∃ op, SpellsOperation i op r ∧ op.nesting ≤ limit + 1 := by
  rw [read_eq] at h
  rcases bind_error_iff.mp h with h | ⟨c, s₁, hpeek, h⟩
  · refine .of_end (Token.peek_error h) ['{', '}'] fun input after _ hinput => ?_
    have hbody : Ignored input ('{' :: ([] ++ '}' :: after)) := hinput
    exact ⟨_, .mk (.absent input) (.absent input) hbody .nil, by simp [nesting]⟩
  obtain ⟨rfl, -⟩ := Token.peek_ok hpeek
  rcases bind_error_iff.mp h with h | ⟨kind, s₂, hkind, h⟩
  · rw [readKind_error h] at he
    cases he
  rcases bind_error_iff.mp h with h | ⟨name, s₃, hname, h⟩
  · exact absurd h Token.name?_ne_error
  obtain ⟨vars, hheader, hvars⟩ := readHeader_ok (by simp) hkind hname
  obtain ⟨vars', hheader', hvars'⟩ := hheader.prepend s.ignored_skipIgnored
  have hvariables := hvars'.trans hvars
  rcases bind_error_iff.mp h with h | ⟨vs, s₄, hvs, h⟩
  · refine (readVariables_completes h he).imp ['{', '}'] (fun after _ => ?_) ?_
    · exact endsVariable_cons (by decide) (by decide) (by decide) ('}' :: after)
    · rintro more after hmore - ⟨vs, rest, hspells, hrest, hlevels⟩
      obtain ⟨rest', hspells', hrest'⟩ := hspells.prepend (hvariables.extend hmore)
      have hbody : Ignored rest' ('{' :: ([] ++ '}' :: after)) := hrest'.trans hrest
      exact ⟨_, .mk (hheader'.extend hmore) hspells' hbody .nil, nesting_le_iff.mpr hlevels⟩
  obtain ⟨brace, hspells, hbrace, hlevels⟩ := readVariables_ok hvs
  obtain ⟨brace', hspells', hbrace'⟩ := hspells.prepend hvariables
  refine (readEnd_completes h he).imp [] (fun _ hafter => hafter) ?_
  rintro more after hmore - ⟨body, hopen, hbody⟩
  have hopen' := ((hbrace'.trans hbrace).extend hmore).trans hopen
  refine ⟨_, .mk (hheader'.extend hmore) (hspells'.extend hmore) hopen' hbody, ?_⟩
  rw [nesting_le_iff]
  intro v hv
  have hle := hlevels v hv
  omega

end Operation

end QueryDoc
