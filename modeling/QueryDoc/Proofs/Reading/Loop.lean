import QueryDoc.Proofs.Reading.Token

/-! Reading phrases in a row up to a closing delimiter. The first character of each phrase tells it
from the delimiter, and each phrase is shorter than what it leaves, so the turns suffice. -/

namespace QueryDoc

open ReadM

variable {α : Type}

theorem SpellsEach.prepend {item : List Char → α → List Char → Prop}
    (hitem : ∀ ⦃i m a r⦄, Ignored i m → item m a r → item i a r) {input mid rest : List Char}
    {as : List α} (h : SpellsEach item mid as rest) (hm : Ignored input mid) :
    ∃ rest', SpellsEach item input as rest' ∧ Ignored rest' rest := by
  cases h with
  | nil => exact ⟨input, .nil input, hm⟩
  | cons ha has => exact ⟨rest, .cons (hitem hm ha) has, .done rest⟩

theorem spellsEach_and_iff {item : List Char → α → List Char → Prop} {p : α → Prop}
    {input rest : List Char} {as : List α} :
    SpellsEach (fun i a r => item i a r ∧ p a) input as rest ↔
      SpellsEach item input as rest ∧ ∀ a ∈ as, p a := by
  constructor
  · intro h
    induction h with
    | nil => exact ⟨.nil _, by simp⟩
    | cons ha _ ih => exact ⟨.cons ha.1 ih.1, List.forall_mem_cons.mpr ⟨ha.2, ih.2⟩⟩
  · rintro ⟨h, hp⟩
    induction h with
    | nil => exact .nil _
    | cons ha _ ih =>
      have hh := List.forall_mem_cons.mp hp
      exact .cons ⟨ha, hh.1⟩ (ih hh.2)

theorem SpellsEach.forall_mem {item : List Char → α → List Char → Prop} {p : α → Prop}
    {input rest : List Char} {as : List α} (h : SpellsEach item input as rest)
    (hitem : ∀ ⦃i a r⦄, a ∈ as → item i a r → p a) : ∀ a ∈ as, p a := by
  induction h with
  | nil => simp
  | cons ha _ ih =>
    exact List.forall_mem_cons.mpr
      ⟨hitem List.mem_cons_self ha, ih fun _ _ _ hm => hitem (List.mem_cons_of_mem _ hm)⟩

theorem SpellsEach.length_le {item : List Char → α → List Char → Prop}
    {input rest : List Char} {as : List α} (h : SpellsEach item input as rest)
    (hitem : ∀ ⦃i a r⦄, a ∈ as → item i a r → r.length ≤ i.length) :
    rest.length ≤ input.length := by
  induction h with
  | nil => exact Nat.le_refl _
  | cons ha _ ih =>
    exact (ih fun _ _ _ hm => hitem (List.mem_cons_of_mem _ hm)).trans (hitem List.mem_cons_self ha)

def readUntil (closing : Char) (delimiter : String) (opening : Span) (item : ReadM α) :
    (turns : Nat) → ReadM (List α)
  | 0 => failWith (·.unclosed delimiter opening)
  | turns + 1 => do
    if (← Token.peekInside delimiter opening) = closing then return []
    else
      let a ← item
      let rest ← readUntil closing delimiter opening item turns
      return a :: rest

variable {closing : Char} {delimiter : String} {opening : Span} {item : ReadM α} {turns : Nat}

theorem readUntil_sound {spells : List Char → α → List Char → Prop} (hitem : Sound item spells)
    (hprepend : ∀ ⦃i m a r⦄, Ignored i m → spells m a r → spells i a r) {s s' : Scanner}
    {as : List α} (h : readUntil closing delimiter opening item turns s = .ok as s') :
    ∃ rest, SpellsEach spells s.rest as rest ∧ Ignored rest s'.rest := by
  induction turns generalizing s as with
  | zero => cases h
  | succ turns ih =>
    rw [readUntil] at h
    obtain ⟨c, s₁, hpeek, h⟩ := bind_ok_iff.mp h
    obtain ⟨rfl, -⟩ := Token.peekInside_ok hpeek
    have hskip := s.ignored_skipIgnored
    split at h
    · obtain ⟨rfl, rfl⟩ := pure_ok_iff.mp h
      exact ⟨s.rest, .nil _, hskip⟩
    · obtain ⟨a, s₂, ha, h⟩ := bind_ok_iff.mp h
      obtain ⟨rest, s₃, hrest, h⟩ := bind_ok_iff.mp h
      obtain ⟨rfl, rfl⟩ := pure_ok_iff.mp h
      obtain ⟨mid, hspells, hmid⟩ := hitem ha
      obtain ⟨last, heach, hlast⟩ := ih hrest
      obtain ⟨last', heach', hlast'⟩ := heach.prepend hprepend hmid
      exact ⟨last', .cons (hprepend hskip hspells) heach', hlast'.trans hlast⟩

theorem readUntil_reaches {spells : List Char → α → List Char → Prop} {first : Char → Bool}
    (hfirst : ∀ ⦃i a r⦄, spells i a r → ∃ c cs, significant i = c :: cs ∧ first c = true)
    (hclosing : first closing = false)
    (hlength : ∀ ⦃i a r⦄, spells i a r → r.length < (significant i).length)
    (hitem : ∀ ⦃s i a r⦄, spells i a r →
      (∃ c cs, significant r = c :: cs ∧ (first c = true ∨ c = closing)) →
      significant s.rest = significant i → Reaches item s a r)
    {s : Scanner} {input rest cs : List Char} {as : List α}
    (h : SpellsEach spells input as rest) (hrest : significant rest = closing :: cs)
    (hturns : (significant input).length < turns) (hs : significant s.rest = significant input) :
    Reaches (readUntil closing delimiter opening item turns) s as rest := by
  induction h generalizing s turns with
  | nil =>
    cases turns with
    | zero => omega
    | succ turns =>
      refine .of_bind (Token.peekInside_of_significant (hs.trans hrest)) ?_
      rw [if_pos rfl]
      exact .pure (by simpa using hs)
  | @cons input mid rest a as ha has ih =>
    cases turns with
    | zero => omega
    | succ turns =>
      obtain ⟨c, ds, hc, hfc⟩ := hfirst ha
      have hne : c ≠ closing := by
        rintro rfl
        simp [hfc] at hclosing
      have hnext : ∃ c cs, significant mid = c :: cs ∧ (first c = true ∨ c = closing) := by
        cases has with
        | nil => exact ⟨closing, cs, hrest, .inr rfl⟩
        | cons hb _ =>
          obtain ⟨d, es, hd, hfd⟩ := hfirst hb
          exact ⟨d, es, hd, .inl hfd⟩
      have hlt := hlength ha
      have hle := (ignored_significant mid).suffix.length_le
      refine .of_bind (Token.peekInside_of_significant (hs.trans hc)) ?_
      rw [if_neg hne]
      refine .bind (hitem ha hnext (by simpa using hs)) fun s₁ hs₁ => ?_
      refine .bind (ih hrest (by omega) hs₁) fun s₂ hs₂ => ?_
      exact .pure hs₂

end QueryDoc
