import QueryDoc.Proofs.Nesting
import QueryDoc.Proofs.Reading.Token
import QueryDoc.TypeRef

/-! Reading a type agrees with the grammar: what is read is spelled in the text and nests no deeper
than allowed, and what is spelled there is read. -/

namespace QueryDoc.TypeRef

open ReadM

variable {limit levels : Nat}

/-- A type without its exclamation mark, given how to read what stands in brackets. -/
def readBase (inner : ReadM TypeRef) : ReadM TypeRef := do
  if (← Token.peek "type") = '[' then do
    let opening ← Token.literal "["
    let t ← inner
    let _ ← Token.peekInside "[" opening
    let _ ← Token.literal "]"
    pure (list t)
  else do
    let name ← withHelp "a type is a name like `Int` or a list type like `[Int]`" Token.name
    pure (named name)

def readMark (base : TypeRef) : ReadM TypeRef := do
  if (← Token.peek?) = some '!' then
    let _ ← Token.literal "!"
    return nonNull base
  else return base

theorem readWithin_succ (limit levels : Nat) :
    readWithin limit (levels + 1) = readBase (readWithin limit levels) >>= readMark := by
  rw [readWithin, readBase, bind_assoc]
  refine bind_congr fun c => ?_
  by_cases hc : c = '['
  · simp only [if_pos hc, bind_assoc, pure_bind]
    rfl
  · simp only [if_neg hc, bind_assoc, pure_bind]
    rfl

theorem readBase_of_bracket {inner : ReadM TypeRef} {s : Scanner} {cs : List Char}
    (h : significant s.rest = '[' :: cs) :
    readBase inner s = (do
      let opening ← Token.literal "["
      let t ← inner
      let _ ← Token.peekInside "[" opening
      let _ ← Token.literal "]"
      pure (list t) : ReadM TypeRef) s.skipIgnored := by
  rw [readBase, bind_of_ok (Token.peek_of_significant h), if_pos rfl]

theorem readBase_of_other {inner : ReadM TypeRef} {s : Scanner} {c : Char} {cs : List Char}
    (h : significant s.rest = c :: cs) (hc : c ≠ '[') :
    readBase inner s = (do
      let name ← withHelp "a type is a name like `Int` or a list type like `[Int]`" Token.name
      pure (named name) : ReadM TypeRef) s.skipIgnored := by
  rw [readBase, bind_of_ok (Token.peek_of_significant h), if_neg hc]

theorem readBase_ok {inner : ReadM TypeRef} {s s' : Scanner} {base : TypeRef}
    (hinner : Sound inner fun input t rest => SpellsType input t rest ∧ t.nesting ≤ levels)
    (h : readBase inner s = .ok base s') :
    SpellsType s.rest base s'.rest ∧ base.nesting ≤ levels + 1 ∧ base.isNonNull = false := by
  obtain ⟨c, s₁, hpeek, -⟩ := bind_ok_iff.mp h
  obtain ⟨rfl, cs, hcs⟩ := Token.peek_ok hpeek
  have hskip := s.ignored_skipIgnored
  by_cases hc : c = '['
  · subst hc
    rw [readBase_of_bracket hcs] at h
    obtain ⟨opening, s₂, hopen, h⟩ := bind_ok_iff.mp h
    obtain ⟨t, s₃, ht, h⟩ := bind_ok_iff.mp h
    obtain ⟨d, s₄, hinside, h⟩ := bind_ok_iff.mp h
    obtain ⟨rfl, -⟩ := Token.peekInside_ok hinside
    obtain ⟨closing, s₅, hclose, h⟩ := bind_ok_iff.mp h
    obtain ⟨rfl, rfl⟩ := pure_ok_iff.mp h
    obtain ⟨mid, ⟨hspells, hlevels⟩, hmid⟩ := hinner ht
    have hclose' : Ignored s₃.rest (']' :: s₅.rest) := by
      have hh := Token.ignored_of_literal hclose
      rw [Scanner.rest_skipIgnored] at hh
      exact (ignored_significant _).trans hh
    refine ⟨.list (hskip.trans (Token.ignored_of_literal hopen)) hspells (hmid.trans hclose'),
      ?_, rfl⟩
    simpa [nesting] using hlevels
  · rw [readBase_of_other hcs hc] at h
    obtain ⟨name, s₂, hname, h⟩ := bind_ok_iff.mp h
    obtain ⟨rfl, rfl⟩ := pure_ok_iff.mp h
    have hspells := Token.name_ok (withHelp_ok_iff.mp hname)
    exact ⟨.named (hspells.prepend hskip), by simp [nesting], rfl⟩

theorem readMark_ok {s s' : Scanner} {base t : TypeRef} (h : readMark base s = .ok t s') :
    (t = nonNull base ∧ Ignored s.rest ('!' :: s'.rest)) ∨
    (t = base ∧ s' = s.skipIgnored ∧ (significant s.rest).head? ≠ some '!') := by
  rw [readMark, bind_of_ok (Token.peek?_eq s)] at h
  split at h
  · obtain ⟨span, s₁, hlit, h⟩ := bind_ok_iff.mp h
    obtain ⟨rfl, rfl⟩ := pure_ok_iff.mp h
    have hh := Token.ignored_of_literal hlit
    rw [Scanner.rest_skipIgnored] at hh
    exact .inl ⟨rfl, (ignored_significant _).trans hh⟩
  · next hmark =>
    obtain ⟨rfl, rfl⟩ := pure_ok_iff.mp h
    exact .inr ⟨rfl, rfl, hmark⟩

theorem readWithin_sound (limit levels : Nat) :
    Sound (readWithin limit levels) fun input t rest =>
      SpellsType input t rest ∧ t.nesting ≤ levels := by
  induction levels with
  | zero =>
    intro s t s' h
    cases h
  | succ levels ih =>
    intro s t s' h
    rw [readWithin_succ] at h
    obtain ⟨base, s₁, hbase, hmark⟩ := bind_ok_iff.mp h
    obtain ⟨hspells, hlevels, hnull⟩ := readBase_ok ih hbase
    rcases readMark_ok hmark with ⟨rfl, hbang⟩ | ⟨rfl, rfl, -⟩
    · exact ⟨s'.rest, ⟨.nonNull hspells hnull hbang, hlevels⟩, .done _⟩
    · exact ⟨s₁.rest, ⟨hspells, hlevels⟩, s₁.ignored_skipIgnored⟩

theorem readMark_absent {s : Scanner} {base : TypeRef}
    (h : (significant s.rest).head? ≠ some '!') : readMark base s = .ok base s.skipIgnored := by
  rw [readMark, bind_of_ok (Token.peek?_eq s), if_neg h]
  rfl

theorem readMark_present {s : Scanner} {base : TypeRef} {rest : List Char}
    (h : significant s.rest = '!' :: rest) : Reaches (readMark base) s (nonNull base) rest := by
  obtain ⟨span, s', hlit, hrest⟩ :=
    Token.literal_of_cons "!" (s := s.skipIgnored) (by simpa using h) (by rfl)
  refine .of_bind (Token.peek?_eq s) ?_
  rw [h, List.head?_cons, if_pos rfl]
  exact .of_bind hlit (.pure (by rw [hrest]))

theorem readBase_named (inner : ReadM TypeRef) {s : Scanner} {input rest : List Char}
    {name : String} (h : SpellsName input name rest) (hs : significant s.rest = significant input) :
    ∃ s', readBase inner s = .ok (named name) s' ∧ s'.rest = rest := by
  obtain ⟨c, ds, hname, hc⟩ := exists_cons_of_isName h.isName
  have hsig : significant s.rest = c :: (ds ++ rest) := by
    rw [hs, h.significant_eq, hname, List.cons_append]
  have hne : c ≠ '[' := by
    rintro rfl
    exact absurd hc (by decide)
  obtain ⟨s', hread, hrest⟩ := Token.name_of_spells (s := s.skipIgnored) h (by simpa using hs)
  refine ⟨s', ?_, hrest⟩
  rw [readBase_of_other hsig hne, bind_of_ok (withHelp_ok_iff.mpr hread)]
  rfl

theorem readBase_list {inner : ReadM TypeRef} {s : Scanner} {input start after rest : List Char}
    {t : TypeRef} (hopen : Ignored input ('[' :: start))
    (hinner : ∀ s₁, significant s₁.rest = significant start → Reaches inner s₁ t after)
    (hclose : Ignored after (']' :: rest)) (hs : significant s.rest = significant input) :
    ∃ s', readBase inner s = .ok (list t) s' ∧ s'.rest = rest := by
  have hsig : significant s.rest = '[' :: start := by
    rw [hs, significant_eq_of_ignored hopen, significant_cons (by decide)]
  have hafter : significant after = ']' :: rest := (ignored_cons_iff (by decide)).mp hclose
  obtain ⟨opening, s₁, hlit, hs₁⟩ :=
    Token.literal_of_cons "[" (s := s.skipIgnored) (by simpa using hsig) (by rfl)
  obtain ⟨s₂, ht, hs₂⟩ := hinner s₁ (by rw [hs₁])
  rw [hafter] at hs₂
  obtain ⟨closing, s₃, hlit', hs₃⟩ :=
    Token.literal_of_cons "]" (s := s₂.skipIgnored) (by simpa using hs₂) (by rfl)
  refine ⟨s₃, ?_, hs₃⟩
  rw [readBase_of_bracket hsig, bind_of_ok hlit, bind_of_ok ht,
    bind_of_ok (Token.peekInside_of_significant hs₂), bind_of_ok hlit']
  rfl

/-- The type ends before anything but an exclamation mark, which would belong to it. -/
theorem readWithin_reaches {levels : Nat} {input rest : List Char} {t : TypeRef} {s : Scanner}
    (h : SpellsType input t rest) (hlevels : t.nesting ≤ levels)
    (hrest : (significant rest).head? ≠ some '!')
    (hs : significant s.rest = significant input) :
    Reaches (readWithin limit levels) s t rest := by
  induction levels generalizing input rest t s with
  | zero => exact absurd t.nesting_pos (by omega)
  | succ levels ih =>
    rw [readWithin_succ]
    -- The inner type of a list is followed by its bracket.
    have hlist : ∀ {input start after rest : List Char} {inner : TypeRef},
        Ignored input ('[' :: start) → SpellsType start inner after → Ignored after (']' :: rest) →
        inner.nesting + 1 ≤ levels + 1 → significant s.rest = significant input →
        ∃ s', readBase (readWithin limit levels) s = .ok (list inner) s' ∧ s'.rest = rest := by
      intro input start after rest inner hopen hinner hclose hle hs
      refine readBase_list hopen (fun s₁ hs₁ => ?_) hclose hs
      refine ih hinner (by omega) ?_ hs₁
      simp [(ignored_cons_iff (by decide)).mp hclose]
    cases h with
    | named hname =>
      obtain ⟨s₁, hbase, rfl⟩ := readBase_named (readWithin limit levels) hname hs
      exact ⟨_, by rw [bind_of_ok hbase, readMark_absent hrest], by simp⟩
    | list hopen hinner hclose =>
      obtain ⟨s₁, hbase, rfl⟩ := hlist hopen hinner hclose hlevels hs
      exact ⟨_, by rw [bind_of_ok hbase, readMark_absent hrest], by simp⟩
    | nonNull hbase hnull hbang =>
      have hmark := (ignored_cons_iff (by decide)).mp hbang
      cases hbase with
      | named hname =>
        obtain ⟨s₁, hbase, rfl⟩ := readBase_named (readWithin limit levels) hname hs
        exact .of_bind hbase (readMark_present hmark)
      | list hopen hinner hclose =>
        obtain ⟨s₁, hbase, rfl⟩ := hlist hopen hinner hclose hlevels hs
        exact .of_bind hbase (readMark_present hmark)
      | nonNull => cases hnull

end QueryDoc.TypeRef
