import QueryDoc.Proofs.Source.Ignored
import QueryDoc.Reading.Basic

/-! Runs of reading actions. A successful run is taken apart step by step, and two notions tie an
action to a grammar: whatever it reads is spelled there, and it reads what is spelled there. Both
leave open how much of the ignored input after a phrase has been passed over. -/

namespace QueryDoc

namespace ReadM

variable {α β : Type}

theorem bind_ok_iff {act : ReadM α} {f : α → ReadM β} {s s'' : Scanner} {b : β} :
    (act >>= f) s = .ok b s'' ↔ ∃ a s', act s = .ok a s' ∧ f a s' = .ok b s'' := by
  change EStateM.bind act f s = _ ↔ _
  unfold EStateM.bind
  cases act s with
  | error e s' => simp
  | ok a s' =>
    constructor
    · exact fun h => ⟨a, s', rfl, h⟩
    · rintro ⟨a, s', heq, h⟩
      cases heq
      exact h

theorem bind_of_ok {act : ReadM α} {f : α → ReadM β} {s s' : Scanner} {a : α}
    (h : act s = .ok a s') : (act >>= f) s = f a s' := by
  change EStateM.bind act f s = _
  simp [EStateM.bind, h]

theorem bind_of_error {act : ReadM α} {f : α → ReadM β} {s s' : Scanner} {e : ReadError}
    (h : act s = .error e s') : (act >>= f) s = .error e s' := by
  change EStateM.bind act f s = _
  simp [EStateM.bind, h]

theorem bind_error_iff {act : ReadM α} {f : α → ReadM β} {s s'' : Scanner} {e : ReadError} :
    (act >>= f) s = .error e s'' ↔
      act s = .error e s'' ∨ ∃ a s', act s = .ok a s' ∧ f a s' = .error e s'' := by
  cases h : act s with
  | error d s' => simp [bind_of_error h]
  | ok a s' =>
    rw [bind_of_ok h]
    constructor
    · exact fun hb => .inr ⟨a, s', rfl, hb⟩
    · rintro (heq | ⟨b, t, heq, hb⟩)
      · cases heq
      · cases heq
        exact hb

theorem pure_ok_iff {a b : α} {s s' : Scanner} :
    (pure a : ReadM α) s = .ok b s' ↔ a = b ∧ s = s' := by
  change EStateM.Result.ok a s = _ ↔ _
  simp

theorem failWith_ok_iff {error : Scanner → ReadError} {a : α} {s s' : Scanner} :
    (failWith error : ReadM α) s = .ok a s' ↔ False := by
  simp [failWith]

theorem unsupportedHere_ok_iff {feature : Feature} {a : α} {s s' : Scanner} :
    (unsupportedHere feature : ReadM α) s = .ok a s' ↔ False :=
  failWith_ok_iff

theorem withHelp_ok_iff {message : String} {act : ReadM α} {a : α} {s s' : Scanner} :
    withHelp message act s = .ok a s' ↔ act s = .ok a s' := by
  unfold withHelp
  cases act s <;> simp

theorem onText_ok_iff {act : ReadM α} {source : List Char} {file : Option String} {a : α} :
    onText act source file = .ok a ↔ ∃ s', act (.start source file) = .ok a s' := by
  unfold onText
  cases act (.start source file) with
  | ok b s' => simp
  | error e s' => simp

/-- Whatever the action reads is spelled at the beginning of the text. -/
def Sound (act : ReadM α) (spells : List Char → α → List Char → Prop) : Prop :=
  ∀ ⦃s a s'⦄, act s = .ok a s' → ∃ rest, spells s.rest a rest ∧ Ignored rest s'.rest

/-- The action passes over a character at least if it answers. -/
def Consumes (act : ReadM α) : Prop :=
  ∀ ⦃s a t⦄, act s = .ok a t → t.rest.length < s.rest.length

theorem Sound.consumes {act : ReadM α} {spells : List Char → α → List Char → Prop}
    (h : Sound act spells)
    (hlength : ∀ ⦃i a r⦄, spells i a r → r.length < (significant i).length) : Consumes act := by
  intro s a t ha
  obtain ⟨rest, hspells, hrest⟩ := h ha
  have h₁ := hlength hspells
  have h₂ := (ignored_significant s.rest).suffix.length_le
  have h₃ := hrest.suffix.length_le
  omega

/-- The action reads a value and stops before the same token as `rest` does. -/
def Reaches (act : ReadM α) (s : Scanner) (a : α) (rest : List Char) : Prop :=
  ∃ s', act s = .ok a s' ∧ significant s'.rest = significant rest

theorem Reaches.bind {act : ReadM α} {f : α → ReadM β} {s : Scanner} {a : α} {b : β}
    {mid rest : List Char} (h : Reaches act s a mid)
    (hf : ∀ s', significant s'.rest = significant mid → Reaches (f a) s' b rest) :
    Reaches (act >>= f) s b rest := by
  obtain ⟨s', hact, hmid⟩ := h
  obtain ⟨s'', hb, hrest⟩ := hf s' hmid
  exact ⟨s'', by rw [bind_of_ok hact, hb], hrest⟩

theorem Reaches.of_bind {act : ReadM α} {f : α → ReadM β} {s s' : Scanner} {a : α} {b : β}
    {rest : List Char} (h : act s = .ok a s') (hf : Reaches (f a) s' b rest) :
    Reaches (act >>= f) s b rest := by
  obtain ⟨s'', hb, hrest⟩ := hf
  exact ⟨s'', by rw [bind_of_ok h, hb], hrest⟩

theorem Reaches.pure {a : α} {s : Scanner} {rest : List Char}
    (h : significant s.rest = significant rest) : Reaches (pure a) s a rest :=
  ⟨s, rfl, h⟩

end ReadM

end QueryDoc
