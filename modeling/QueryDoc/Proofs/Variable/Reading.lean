import QueryDoc.Proofs.Atom.Reading
import QueryDoc.Proofs.Reading.Loop
import QueryDoc.Proofs.TypeRef.Reading
import QueryDoc.Variable

/-! Reading variable definitions agrees with the grammar. A definition ends before anything that could
not go on with its type, its default value or directives; the dollar sign of the next definition and the
closing parenthesis are such. -/

namespace QueryDoc

open ReadM

theorem SpellsType.prepend {input mid rest : List Char} {t : TypeRef} (hm : Ignored input mid)
    (h : SpellsType mid t rest) : SpellsType input t rest := by
  induction h with
  | named hname => exact .named (hname.prepend hm)
  | list hopen hinner hclose => exact .list (hm.trans hopen) hinner hclose
  | nonNull _ hnull hbang ih => exact .nonNull (ih hm) hnull hbang

theorem SpellsType.length_lt {input rest : List Char} {t : TypeRef}
    (h : SpellsType input t rest) : rest.length < (significant input).length := by
  induction h with
  | named hname => exact hname.length_lt
  | @list _ inner _ _ _ hopen _ hclose ih =>
    have h₁ := (ignored_significant inner).suffix.length_le
    have h₂ := hclose.suffix.length_le
    rw [(ignored_cons_iff (by decide)).mp hopen, List.length_cons]
    rw [List.length_cons] at h₂
    omega
  | nonNull _ _ hbang ih =>
    have h₁ := hbang.suffix.length_le
    rw [List.length_cons] at h₁
    omega

theorem TypeRef.readWithin_consumes (limit levels : Nat) : Consumes (readWithin limit levels) :=
  (readWithin_sound limit levels).consumes fun _ _ _ h => h.1.length_lt

theorem SpellsDefault.prepend {input mid rest : List Char} {value : Option Atom}
    (hm : Ignored input mid) (h : SpellsDefault mid value rest) :
    ∃ rest', SpellsDefault input value rest' ∧ Ignored rest' rest := by
  cases h with
  | absent => exact ⟨input, .absent input, hm⟩
  | given heq ha => exact ⟨rest, .given (hm.trans heq) ha, .done rest⟩

theorem SpellsDefault.length_le {input rest : List Char} {value : Option Atom}
    (h : SpellsDefault input value rest) : rest.length ≤ input.length := by
  cases h with
  | absent => exact Nat.le_refl _
  | @given start _ _ heq ha =>
    have h₁ := heq.suffix.length_le
    have h₂ := ha.length_lt
    have h₃ := (ignored_significant start).suffix.length_le
    simp only [List.length_cons] at h₁
    omega

namespace SpellsVariable

variable {input mid rest : List Char} {v : VariableDefinition}

theorem prepend (hm : Ignored input mid) (h : SpellsVariable mid v rest) :
    SpellsVariable input v rest := by
  cases h with
  | mk hdollar hname hcolon ht hvalue hend =>
    exact .mk (hm.trans hdollar) hname hcolon ht hvalue hend

theorem begins (h : SpellsVariable input v rest) : ∃ cs, significant input = '$' :: cs := by
  cases h with
  | @mk start _ _ _ _ _ _ _ hdollar => exact ⟨start, (ignored_cons_iff (by decide)).mp hdollar⟩

theorem length_lt (h : SpellsVariable input v rest) : rest.length < (significant input).length := by
  cases h with
  | @mk start _ type _ _ _ _ _ hdollar hname hcolon ht hvalue _ =>
    have hcolon := hname.length_lt_of_colon hcolon
    have hname := (ignored_significant start).suffix.length_le
    have htype := ht.length_lt.le.trans (ignored_significant type).suffix.length_le
    have hrest := hvalue.length_le
    rw [(ignored_cons_iff (by decide)).mp hdollar, List.length_cons]
    omega

end SpellsVariable

namespace VariableDefinition

variable {limit : Nat} {s s' : Scanner}

def readDefault (limit : Nat) : ReadM (Option Atom) := do
  if (← Token.peek?) = some '=' then
    let _ ← Token.literal "="
    let value ← Atom.read limit
    return some value
  else return none

def refuseDirectives (v : VariableDefinition) : ReadM VariableDefinition := do
  if (← Token.peek?) = some '@' then unsupportedHere .variableDirectives else return v

theorem read_eq (limit : Nat) : read limit = (do
    let _ ← Token.literal "$"
    let name ← Token.name
    let _ ← withHelp "variable definitions look like `$name: Type`" (Token.literal ":")
    let type ← TypeRef.read limit
    let defaultValue ← readDefault limit
    refuseDirectives { name, type, defaultValue }) := by
  rw [read]
  refine bind_congr fun _ => bind_congr fun name => bind_congr fun _ => bind_congr fun type => ?_
  rw [readDefault, bind_assoc]
  refine bind_congr fun c => ?_
  by_cases hc : c = some '='
  · simp only [if_pos hc, bind_assoc, pure_bind]
    rfl
  · simp only [if_neg hc, pure_bind]
    rfl

theorem readDefault_ok {value : Option Atom} (h : readDefault limit s = .ok value s') :
    ∃ rest, SpellsDefault s.rest value rest ∧ Ignored rest s'.rest ∧
      ∀ a ∈ value, a.nesting ≤ limit := by
  have hskip := s.ignored_skipIgnored
  rw [readDefault, bind_of_ok (Token.peek?_eq s)] at h
  split at h
  · obtain ⟨span, s₁, hlit, h⟩ := bind_ok_iff.mp h
    obtain ⟨a, s₂, ha, h⟩ := bind_ok_iff.mp h
    obtain ⟨rfl, rfl⟩ := pure_ok_iff.mp h
    obtain ⟨rest, ⟨hspells, hlevels⟩, hrest⟩ := Atom.readWithin_sound limit limit ha
    exact ⟨rest, .given (hskip.trans (Token.ignored_of_literal hlit)) hspells, hrest,
      by simpa using hlevels⟩
  · obtain ⟨rfl, rfl⟩ := pure_ok_iff.mp h
    exact ⟨s.rest, .absent _, hskip, by simp⟩

theorem refuseDirectives_ok {v w : VariableDefinition} (h : refuseDirectives v s = .ok w s') :
    w = v ∧ s' = s.skipIgnored ∧ (significant s.rest).head? ≠ some '@' := by
  rw [refuseDirectives, bind_of_ok (Token.peek?_eq s)] at h
  split at h
  · exact (unsupportedHere_ok_iff.mp h).elim
  · next hend =>
    obtain ⟨rfl, rfl⟩ := pure_ok_iff.mp h
    exact ⟨rfl, rfl, hend⟩

theorem read_sound (limit : Nat) :
    Sound (read limit) fun input v rest => SpellsVariable input v rest ∧ v.nesting ≤ limit := by
  intro s v s' h
  rw [read_eq] at h
  obtain ⟨dollar, s₁, hdollar, h⟩ := bind_ok_iff.mp h
  obtain ⟨name, s₂, hname, h⟩ := bind_ok_iff.mp h
  obtain ⟨colon, s₃, hcolon, h⟩ := bind_ok_iff.mp h
  obtain ⟨t, s₄, ht, h⟩ := bind_ok_iff.mp h
  obtain ⟨value, s₅, hvalue, h⟩ := bind_ok_iff.mp h
  obtain ⟨rfl, rfl, hend⟩ := refuseDirectives_ok h
  obtain ⟨mid, ⟨htype, htlevels⟩, hmid⟩ := TypeRef.readWithin_sound limit limit ht
  obtain ⟨rest, hdefault, hrest, hvlevels⟩ := readDefault_ok hvalue
  obtain ⟨rest', hdefault', hrest'⟩ := hdefault.prepend hmid
  have hafter : Ignored rest' s₅.rest := hrest'.trans hrest
  refine ⟨rest', ⟨.mk (Token.ignored_of_literal hdollar) (Token.name_ok hname)
    (Token.ignored_of_literal (withHelp_ok_iff.mp hcolon)) htype hdefault' ?_, ?_⟩, ?_⟩
  · rwa [significant_eq_of_ignored hafter]
  · exact nesting_le_iff.mpr ⟨htlevels, hvlevels⟩
  · exact hafter.trans s₅.ignored_skipIgnored

theorem read_consumes (limit : Nat) : Consumes (read limit) :=
  (read_sound limit).consumes fun _ _ _ h => h.1.length_lt

theorem readDefault_reaches {input rest : List Char} {value : Option Atom}
    (h : SpellsDefault input value rest) (hlevels : ∀ a ∈ value, a.nesting ≤ limit)
    (hend : (significant rest).head? ≠ some '=') (hs : significant s.rest = significant input) :
    Reaches (readDefault limit) s value rest := by
  refine .of_bind (Token.peek?_eq s) ?_
  cases h with
  | absent =>
    rw [if_neg (by rwa [hs])]
    exact .pure (by simpa using hs)
  | given heq ha =>
    have hhead := (ignored_cons_iff (by decide)).mp heq
    obtain ⟨span, s₁, hlit, hs₁⟩ :=
      Token.literal_of_cons "=" (s := s.skipIgnored) (by simpa using hs.trans hhead) (by rfl)
    rw [if_pos (by rw [hs, hhead, List.head?_cons])]
    refine .of_bind hlit ?_
    exact .bind (Atom.readWithin_reaches ha (hlevels _ rfl) (by rw [hs₁])) fun s₂ hs₂ => .pure hs₂

theorem read_reaches {input rest : List Char} {v : VariableDefinition}
    (h : SpellsVariable input v rest) (hlevels : v.nesting ≤ limit)
    (hmark : (significant rest).head? ≠ some '!') (hequals : (significant rest).head? ≠ some '=')
    (hs : significant s.rest = significant input) : Reaches (read limit) s v rest := by
  obtain ⟨htlevels, hvlevels⟩ := nesting_le_iff.mp hlevels
  cases h with
  | @mk start colon type default _ _ _ _ hdollar hname hcolon ht hvalue hend =>
    have hbang : (significant default).head? ≠ some '!' := by
      cases hvalue with
      | absent => exact hmark
      | given heq _ => simp [(ignored_cons_iff (by decide)).mp heq]
    rw [read_eq]
    obtain ⟨span, s₁, hlit, rfl⟩ := Token.literal_of_ignored "$" hdollar hs (by rfl) (by rfl)
    obtain ⟨s₂, hread, rfl⟩ := Token.name_of_spells hname rfl
    obtain ⟨span', s₃, hlit', rfl⟩ := Token.literal_of_ignored ":" hcolon rfl (by rfl) (by rfl)
    refine .of_bind hlit (.of_bind hread (.of_bind (withHelp_ok_iff.mpr hlit') ?_))
    refine .bind (TypeRef.readWithin_reaches ht htlevels hbang rfl) fun s₄ hs₄ => ?_
    refine .bind (readDefault_reaches hvalue hvlevels hequals hs₄) fun s₅ hs₅ => ?_
    refine .of_bind (Token.peek?_eq s₅) ?_
    rw [if_neg (by rwa [hs₅])]
    exact .pure (by simpa using hs₅)

theorem readEach_eq (limit : Nat) (opening : Span) (turns : Nat) :
    readEach limit opening turns = readUntil ')' "(" opening (read limit) turns := by
  induction turns with
  | zero => rfl
  | succ turns ih => rw [readEach, readUntil, ih]

theorem readList_ok {vs : List VariableDefinition} (h : readList limit s = .ok vs s') :
    SpellsVariables s.rest vs s'.rest ∧ vs ≠ [] ∧ ∀ v ∈ vs, v.nesting ≤ limit := by
  obtain ⟨opening, s₁, hopen, h⟩ := bind_ok_iff.mp h
  obtain ⟨c, s₂, hinside, h⟩ := bind_ok_iff.mp h
  obtain ⟨rfl, cs, hcs⟩ := Token.peekInside_ok hinside
  split at h
  · exact (failWith_ok_iff.mp h).elim
  next hc =>
  obtain ⟨here, s₂, hget, h⟩ := bind_ok_iff.mp h
  cases hget
  obtain ⟨definitions, s₃, heach, h⟩ := bind_ok_iff.mp h
  obtain ⟨closing, s₄, hclose, h⟩ := bind_ok_iff.mp h
  obtain ⟨rfl, rfl⟩ := pure_ok_iff.mp h
  rw [readEach_eq] at heach
  obtain ⟨after, hspells, hafter⟩ :=
    readUntil_sound (read_sound limit) (fun _ _ _ _ hm h => ⟨h.1.prepend hm, h.2⟩) heach
  obtain ⟨hspells, hlevels⟩ := spellsEach_and_iff.mp hspells
  have hclose' : Ignored after (')' :: s₄.rest) := hafter.trans (Token.ignored_of_literal hclose)
  cases hspells with
  | nil =>
    have hh := (ignored_cons_iff (by decide)).mp hclose'
    rw [Scanner.rest_skipIgnored, significant_significant, hcs, List.cons.injEq] at hh
    exact absurd hh.1 hc
  | cons hv hvs =>
    have hskip := s₁.ignored_skipIgnored
    refine ⟨.given (Token.ignored_of_literal hopen) (.cons (hv.prepend hskip) hvs) hclose', ?_,
      hlevels⟩
    exact List.cons_ne_nil _ _

theorem readList_reaches {input rest : List Char} {vs : List VariableDefinition}
    (h : SpellsVariables input vs rest) (hvs : vs ≠ [])
    (hlevels : ∀ v ∈ vs, v.nesting ≤ limit) (hs : significant s.rest = significant input) :
    Reaches (readList limit) s vs rest := by
  cases h with
  | absent => exact absurd rfl hvs
  | @given inner after _ v vs hparen heach hclose =>
    have hafter := (ignored_cons_iff (by decide)).mp hclose
    obtain ⟨span, s₁, hlit, hs₁⟩ := Token.literal_of_ignored "(" hparen hs (by rfl) (by rfl)
    obtain ⟨ds, hds⟩ : ∃ ds, significant s₁.rest = '$' :: ds := by
      cases heach with
      | cons hv _ => rw [hs₁]; exact hv.begins
    have hfirst : ∀ ⦃i v r⦄, SpellsVariable i v r ∧ v.nesting ≤ limit →
        ∃ c cs, significant i = c :: cs ∧ (c == '$') = true := by
      rintro i v r ⟨h, -⟩
      obtain ⟨cs, hcs⟩ := h.begins
      exact ⟨'$', cs, hcs, rfl⟩
    have hvars : Reaches (readEach limit span (s₁.skipIgnored.rest.length + 1)) s₁.skipIgnored
        (v :: vs) after := by
      rw [readEach_eq]
      refine readUntil_reaches hfirst (by decide) (fun _ _ _ h => h.1.length_lt) ?_
        (spellsEach_and_iff.mpr ⟨heach, hlevels⟩) hafter ?_ ?_
      · rintro s i v r h ⟨c, cs, hc, hnext⟩ hs
        have hhead : ∀ d, d ≠ '$' → d ≠ ')' → (significant r).head? ≠ some d := by
          rintro d hdollar hparen
          rw [hc, List.head?_cons]
          rintro ⟨⟩
          exact hnext.elim (hdollar ∘ beq_iff_eq.mp) hparen
        exact read_reaches h.1 h.2 (hhead '!' (by decide) (by decide))
          (hhead '=' (by decide) (by decide)) hs
      · simp [hs₁]
      · simp [hs₁]
    refine .of_bind hlit (.of_bind (Token.peekInside_of_significant hds) ?_)
    rw [if_neg (by decide)]
    refine .of_bind (a := s₁.skipIgnored) rfl (.bind hvars fun s₂ hs₂ => ?_)
    obtain ⟨span', s₃, hlit', hs₃⟩ := Token.literal_of_cons ")" (hs₂.trans hafter) (by rfl)
    exact .of_bind hlit' (.pure (by rw [hs₃]))

end VariableDefinition

end QueryDoc
