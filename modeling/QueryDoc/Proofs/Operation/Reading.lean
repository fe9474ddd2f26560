import QueryDoc.Operation
import QueryDoc.Proofs.Selection.Reading
import QueryDoc.Proofs.Variable.Reading

/-! Reading operations agrees with the grammar. Whether a name is a keyword depends on the whole run
of name characters, and what follows a header tells a parenthesis from a brace. -/

namespace QueryDoc

open ReadM

theorem SpellsHeader.prepend {input mid rest : List Char} {kind : OperationKind}
    {name : Option String} (hm : Ignored input mid) (h : SpellsHeader mid kind name rest) :
    ∃ rest', SpellsHeader input kind name rest' ∧ Ignored rest' rest := by
  cases h with
  | absent => exact ⟨input, .absent input, hm⟩
  | keyword hkeyword => exact ⟨rest, .keyword (hkeyword.prepend hm), .done rest⟩
  | named hkeyword hname => exact ⟨rest, .named (hkeyword.prepend hm) hname, .done rest⟩
  | bareName hname hword hne => exact ⟨rest, .bareName (hname.prepend hm) hword hne, .done rest⟩

theorem SpellsVariables.prepend {input mid rest : List Char} {vs : List VariableDefinition}
    (hm : Ignored input mid) (h : SpellsVariables mid vs rest) :
    ∃ rest', SpellsVariables input vs rest' ∧ Ignored rest' rest := by
  cases h with
  | absent => exact ⟨input, .absent input, hm⟩
  | given hopen heach hclose => exact ⟨rest, .given (hm.trans hopen) heach hclose, .done rest⟩

/-- What follows the header of an operation is a parenthesis or a brace. -/
theorem SpellsVariables.begins {input rest cs : List Char} {vs : List VariableDefinition}
    (h : SpellsVariables input vs rest) (hrest : significant rest = '{' :: cs) :
    ∃ c ds, significant input = c :: ds ∧ isNameStart c = false := by
  cases h with
  | absent => exact ⟨'{', cs, hrest, by decide⟩
  | given hopen => exact ⟨'(', _, (ignored_cons_iff (by decide)).mp hopen, by decide⟩

theorem SpellsHeader.begins {input rest ds : List Char} {c : Char} {kind : OperationKind}
    {name : Option String} (h : SpellsHeader input kind name rest)
    (hrest : significant rest = c :: ds) : ∃ c cs, significant input = c :: cs := by
  have hname : ∀ {word : String} {after : List Char}, SpellsName input word after →
      ∃ c cs, significant input = c :: cs := by
    intro word after hword
    obtain ⟨c, cs, hcs, -⟩ := hword.begins
    exact ⟨c, cs, hcs⟩
  cases h with
  | absent => exact ⟨c, ds, hrest⟩
  | keyword hkeyword => exact hname hkeyword
  | named hkeyword _ => exact hname hkeyword
  | bareName hbare _ _ => exact hname hbare

namespace Operation

variable {limit : Nat} {s s' : Scanner}

theorem readKind_eq (s : Scanner) :
    readKind s = match leadingName? s.rest with
      | none => .ok .query s
      | some word =>
        if word = "fragment".toList then
          failWith (fun t => .unsupported .fragmentDefinitions (t.spanFrom s.position))
            (s.skipRun isNameContinue)
        else match OperationKind.ofKeyword? (String.ofList word) with
          | some kind => (Token.keyword kind.keyword >>= fun _ => pure kind : ReadM _) s
          | none => .ok .query s := by
  change (match s.name? with
    | none => pure OperationKind.query
    | some word =>
      if word = "fragment".toList then do
        set (s.skipRun isNameContinue)
        failWith fun t => .unsupported .fragmentDefinitions (t.spanFrom s.position)
      else
        match OperationKind.ofKeyword? (String.ofList word) with
        | some kind => do
          let _ ← Token.keyword kind.keyword
          return kind
        | none => return .query : ReadM OperationKind) s = _
  rw [Scanner.name?]
  cases leadingName? s.rest with
  | none => rfl
  | some word =>
    by_cases hf : word = "fragment".toList
    · simp only [if_pos hf]
      rfl
    · simp only [if_neg hf]
      cases OperationKind.ofKeyword? (String.ofList word) <;> rfl

/-- The kind and the name of an operation, when ignored input before it has been passed over. -/
theorem readHeader_ok {s₁ s₂ : Scanner} {kind : OperationKind} {name : Option String}
    (hs : significant s.rest = s.rest) (hkind : readKind s = .ok kind s₁)
    (hname : Token.name? s₁ = .ok name s₂) :
    ∃ rest, SpellsHeader s.rest kind name rest ∧ Ignored rest s₂.rest := by
  rw [readKind_eq] at hkind
  cases hlead : leadingName? s.rest with
  | none =>
    rw [hlead] at hkind
    cases hkind
    rcases Token.name?_ok hname with ⟨n, rfl, hspells⟩ | ⟨rfl, rfl, -⟩
    · have hh := hspells.leadingName?
      rw [hs, hlead] at hh
      cases hh
    · exact ⟨s.rest, .absent _, s.ignored_skipIgnored⟩
  | some word =>
    rw [hlead] at hkind
    dsimp only at hkind
    split at hkind
    · cases hkind
    · next hfragment =>
      cases hword : OperationKind.ofKeyword? (String.ofList word) with
      | some k =>
        rw [hword] at hkind
        obtain ⟨span, s₃, hkeyword, h⟩ := bind_ok_iff.mp hkind
        obtain ⟨rfl, rfl⟩ := pure_ok_iff.mp h
        have hspells := Token.keyword_ok hkeyword
        rcases Token.name?_ok hname with ⟨n, rfl, hn⟩ | ⟨rfl, rfl, -⟩
        · exact ⟨_, .named hspells hn, .done _⟩
        · exact ⟨_, .keyword hspells, s₃.ignored_skipIgnored⟩
      | none =>
        rw [hword] at hkind
        cases hkind
        rcases Token.name?_ok hname with ⟨n, rfl, hspells⟩ | ⟨rfl, rfl, hstart⟩
        · have hn := hspells.leadingName?
          rw [hs, hlead, Option.some.injEq] at hn
          subst hn
          rw [String.ofList_toList] at hword
          exact ⟨_, .bareName hspells hword fun he => hfragment (congrArg String.toList he), .done _⟩
        · obtain ⟨hisName, rest, hrest, -⟩ := leadingName?_eq_some hlead
          obtain ⟨c, ds, rfl, hc⟩ := exists_cons_of_isName hisName
          rw [hs, hrest] at hstart
          simp [hc] at hstart

theorem readKind_of_keyword {input rest : List Char} {kind : OperationKind}
    (h : SpellsName input kind.keyword rest) (hs : s.rest = significant input) :
    ∃ s', readKind s = .ok kind s' ∧ s'.rest = rest := by
  obtain ⟨span, s', hkeyword, hrest⟩ :=
    Token.keyword_of_spells (s := s) h (by rw [hs, significant_significant])
  have hfragment : kind.keyword.toList ≠ "fragment".toList := by
    cases kind <;> decide
  have hword : OperationKind.ofKeyword? kind.keyword = some kind :=
    OperationKind.ofKeyword?_eq_some_iff.mpr rfl
  refine ⟨s', ?_, hrest⟩
  rw [readKind_eq, hs, h.leadingName?]
  simp only [if_neg hfragment, String.ofList_toList, hword]
  rw [bind_of_ok hkeyword]
  rfl

theorem readHeader_reaches {input rest : List Char} {kind : OperationKind} {name : Option String}
    (h : SpellsHeader input kind name rest) (hs : s.rest = significant input)
    (hnext : ∀ c ∈ (significant rest).head?, isNameStart c = false) :
    ∃ s₁ s₂, readKind s = .ok kind s₁ ∧ Token.name? s₁ = .ok name s₂ ∧
      significant s₂.rest = significant rest := by
  cases h with
  | absent =>
    have hlead : leadingName? s.rest = none := by
      rw [hs]
      cases hsig : significant input with
      | nil => rfl
      | cons c cs => simp [leadingName?, hnext c (by rw [hsig]; rfl)]
    refine ⟨s, s.skipIgnored, by rw [readKind_eq, hlead], ?_, by simp [hs]⟩
    exact Token.name?_of_not_isNameStart (by rwa [hs, significant_significant])
  | keyword hkeyword =>
    obtain ⟨s₁, hkind, rfl⟩ := readKind_of_keyword hkeyword hs
    exact ⟨s₁, _, hkind, Token.name?_of_not_isNameStart hnext, by simp⟩
  | named hkeyword hname =>
    obtain ⟨s₁, hkind, rfl⟩ := readKind_of_keyword hkeyword hs
    obtain ⟨s₂, hread, rfl⟩ := Token.name?_of_spells hname rfl
    exact ⟨s₁, s₂, hkind, hread, rfl⟩
  | @bareName _ name hname hword hfragment =>
    obtain ⟨s₁, hread, rfl⟩ :=
      Token.name?_of_spells (s := s) hname (by rw [hs, significant_significant])
    have hne : name.toList ≠ "fragment".toList := fun he => hfragment (String.toList_inj.mp he)
    refine ⟨s, s₁, ?_, hread, rfl⟩
    rw [readKind_eq, hs, hname.leadingName?]
    simp only [if_neg hne, String.ofList_toList, hword]

def readVariables (limit : Nat) : ReadM (List VariableDefinition) := do
  if (← Token.peek?) = some '(' then VariableDefinition.readList limit else return []

/-- The end of an operation: its selection set, with no directives before it. -/
def readEnd (kind : OperationKind) (name : Option String)
    (variableDefinitions : List VariableDefinition) : ReadM Operation := do
  if (← Token.peek?) = some '@' then unsupportedHere .operationDirectives
  else
    let selectionSet ← SelectionSet.read
    return { kind, name, variableDefinitions, selectionSet }

theorem read_eq (limit : Nat) : read limit = (do
    let _ ← Token.peek "operation definition"
    let kind ← readKind
    let name ← Token.name?
    let variableDefinitions ← readVariables limit
    readEnd kind name variableDefinitions) := by
  rw [read]
  refine bind_congr fun _ => bind_congr fun kind => bind_congr fun name => ?_
  rw [readVariables, bind_assoc]
  refine bind_congr fun c => ?_
  by_cases hc : c = some '('
  · simp only [if_pos hc]
    rfl
  · simp only [if_neg hc, pure_bind]
    rfl

theorem readVariables_ok {vs : List VariableDefinition} (h : readVariables limit s = .ok vs s') :
    ∃ rest, SpellsVariables s.rest vs rest ∧ Ignored rest s'.rest ∧ ∀ v ∈ vs, v.nesting ≤ limit := by
  have hskip := s.ignored_skipIgnored
  rw [readVariables, bind_of_ok (Token.peek?_eq s)] at h
  split at h
  · obtain ⟨hspells, -, hlevels⟩ := VariableDefinition.readList_ok h
    obtain ⟨rest, hspells', hrest⟩ := hspells.prepend hskip
    exact ⟨rest, hspells', hrest, hlevels⟩
  · obtain ⟨rfl, rfl⟩ := pure_ok_iff.mp h
    exact ⟨s.rest, .absent _, hskip, by simp⟩

theorem readEnd_ok {kind : OperationKind} {name : Option String} {vs : List VariableDefinition}
    {op : Operation} (h : readEnd kind name vs s = .ok op s') :
    ∃ body, Ignored s.rest ('{' :: (body ++ '}' :: s'.rest)) ∧ Balanced body ∧
      op = { kind, name, variableDefinitions := vs,
             selectionSet := .ofBody (String.ofList (Text.trim body)) } := by
  rw [readEnd, bind_of_ok (Token.peek?_eq s)] at h
  split at h
  · exact (unsupportedHere_ok_iff.mp h).elim
  · obtain ⟨set, s₁, hset, h⟩ := bind_ok_iff.mp h
    obtain ⟨rfl, rfl⟩ := pure_ok_iff.mp h
    obtain ⟨body, hopen, hbody, rfl⟩ := SelectionSet.read_ok hset
    rw [Scanner.rest_skipIgnored] at hopen
    exact ⟨body, (ignored_significant _).trans hopen, hbody, rfl⟩

theorem read_sound (limit : Nat) :
    Sound (read limit) fun input op rest => SpellsOperation input op rest ∧ op.nesting ≤ limit := by
  intro s op s' h
  rw [read_eq] at h
  obtain ⟨c, s₁, hpeek, h⟩ := bind_ok_iff.mp h
  obtain ⟨rfl, -⟩ := Token.peek_ok hpeek
  obtain ⟨kind, s₂, hkind, h⟩ := bind_ok_iff.mp h
  obtain ⟨name, s₃, hname, h⟩ := bind_ok_iff.mp h
  obtain ⟨vs, s₄, hvs, h⟩ := bind_ok_iff.mp h
  obtain ⟨body, hopen, hbody, rfl⟩ := readEnd_ok h
  obtain ⟨vars, hheader, hvariables⟩ := readHeader_ok (by simp) hkind hname
  obtain ⟨brace, hspells, hbrace, hlevels⟩ := readVariables_ok hvs
  have hskip := s.ignored_skipIgnored
  obtain ⟨vars', hheader', hvariables'⟩ := hheader.prepend hskip
  obtain ⟨brace', hspells', hbrace'⟩ := hspells.prepend (hvariables'.trans hvariables)
  exact ⟨s'.rest, ⟨.mk hheader' hspells' ((hbrace'.trans hbrace).trans hopen) hbody,
    nesting_le_iff.mpr hlevels⟩, .done _⟩

theorem readVariables_reaches {input rest cs : List Char} {vs : List VariableDefinition}
    (h : SpellsVariables input vs rest) (hrest : significant rest = '{' :: cs)
    (hlevels : ∀ v ∈ vs, v.nesting ≤ limit) (hs : significant s.rest = significant input) :
    Reaches (readVariables limit) s vs rest := by
  refine .of_bind (Token.peek?_eq s) ?_
  cases h with
  | absent =>
    rw [if_neg (by simp [hs, hrest])]
    exact .pure (by simpa using hs)
  | given hopen heach hclose =>
    rw [if_pos (by rw [hs, (ignored_cons_iff (by decide)).mp hopen, List.head?_cons])]
    exact VariableDefinition.readList_reaches (.given hopen heach hclose) (List.cons_ne_nil _ _)
      hlevels (by simpa using hs)

theorem readEnd_reaches {kind : OperationKind} {name : Option String}
    {vs : List VariableDefinition} {input body rest : List Char}
    (hopen : Ignored input ('{' :: (body ++ '}' :: rest))) (hbody : Balanced body)
    (hs : significant s.rest = significant input) :
    Reaches (readEnd kind name vs) s
      { kind, name, variableDefinitions := vs,
        selectionSet := .ofBody (String.ofList (Text.trim body)) } rest := by
  have hhead := hs.trans ((ignored_cons_iff (by decide)).mp hopen)
  refine .of_bind (Token.peek?_eq s) ?_
  rw [if_neg (by simp [hhead])]
  exact .bind (SelectionSet.read_reaches (by simpa using hhead) hbody) fun s₁ hs₁ => .pure hs₁

theorem read_reaches {input rest : List Char} {op : Operation} (h : SpellsOperation input op rest)
    (hlevels : op.nesting ≤ limit) (hs : significant s.rest = significant input) :
    Reaches (read limit) s op rest := by
  rw [nesting_le_iff] at hlevels
  cases h with
  | @mk vars brace body _ kind name vs hheader hvariables hopen hbody =>
    have hbrace := (ignored_cons_iff (by decide)).mp hopen
    obtain ⟨c, cs, hc, hstart⟩ := hvariables.begins hbrace
    obtain ⟨d, ds, hd⟩ := hheader.begins hc
    have hnext : ∀ c ∈ (significant vars).head?, isNameStart c = false := by
      simpa [hc] using hstart
    obtain ⟨s₁, s₂, hkind, hname, hs₂⟩ :=
      readHeader_reaches (s := s.skipIgnored) hheader (by simpa using hs) hnext
    rw [read_eq]
    refine .of_bind (Token.peek_of_significant (hs.trans hd)) (.of_bind hkind (.of_bind hname ?_))
    refine .bind (readVariables_reaches hvariables hbrace hlevels hs₂) fun s₃ hs₃ => ?_
    exact readEnd_reaches hopen hbody hs₃

end Operation

end QueryDoc
