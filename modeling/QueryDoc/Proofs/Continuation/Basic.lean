import QueryDoc.Proofs.Reading.Basic

/-! Reading a text that goes on after its end. As long as an action does not come to the end of the
text, it does the same on the longer one, and an error that is no missing end stays the same. At the
end of the text an action may wait for more, but it has nothing to object to. -/

namespace QueryDoc

/-- Errors that differ at most in where their span ends. -/
structure ReadError.Agrees (e e' : ReadError) : Prop where
  cause : e.cause = e'.cause
  message : e.message = e'.message
  notes : e.notes = e'.notes
  start : e.span.start = e'.span.start

theorem ReadError.Agrees.addHelp {e e' : ReadError} (h : e.Agrees e') (message : String) :
    (e.addHelp message).Agrees (e'.addHelp message) := by
  refine ⟨h.cause, h.message, ?_, h.start⟩
  simp only [ReadError.addHelp, h.notes]

theorem ReadError.Agrees.addNote {e e' : ReadError} (h : e.Agrees e') (message : String) :
    (e.addNote message).Agrees (e'.addNote message) := by
  refine ⟨h.cause, h.message, ?_, h.start⟩
  simp only [ReadError.addNote, h.notes]

/-- The scanner at the same place of a text that goes on with more. -/
def Scanner.followedBy (more : List Char) (s : Scanner) : Scanner :=
  { s with rest := s.rest ++ more }

namespace ReadM

variable {α β : Type}

/-- An error of the first action that does not say that the end is missing is one of the second. -/
def FailsAlike (more : List Char) (act act' : ReadM α) (s : Scanner) : Prop :=
  ∀ ⦃e s₁⦄, act s = .error e s₁ → e.isIncomplete = false →
    ∃ e' s₂, act' (s.followedBy more) = .error e' s₂ ∧ e.Agrees e'

/-- The second action does on the longer text what the first one does. -/
structure InStep (more : List Char) (act act' : ReadM α) (s : Scanner) : Prop where
  ok : ∀ ⦃a s₁⦄, act s = .ok a s₁ → act' (s.followedBy more) = .ok a (s₁.followedBy more)
  error : FailsAlike more act act' s

/-- The same for actions that may come to the end of the text. -/
structure KeepsUp (more : List Char) (act act' : ReadM α) (s : Scanner) : Prop where
  ok : ∀ ⦃a s₁⦄, act s = .ok a s₁ →
    act' (s.followedBy more) = .ok a (s₁.followedBy more) ∨ significant s₁.rest = []
  error : FailsAlike more act act' s

/-- At the end of a text the action stays there or asks for more. -/
def StaysAtEnd (act : ReadM α) : Prop :=
  ∀ ⦃s⦄, significant s.rest = [] → (∀ ⦃a s₁⦄, act s = .ok a s₁ → significant s₁.rest = []) ∧
    ∀ ⦃e s₁⦄, act s = .error e s₁ → e.isIncomplete = true

def FailsAtEnd (act : ReadM α) : Prop :=
  ∀ ⦃s⦄, significant s.rest = [] → ∃ e s₁, act s = .error e s₁ ∧ e.isIncomplete = true

section Bind

variable {more : List Char} {act act' : ReadM α} {f f' : α → ReadM β} {s : Scanner}

theorem FailsAlike.bind (h : FailsAlike more act act' s)
    (hok : ∀ ⦃a s₁⦄, act s = .ok a s₁ →
      (act' (s.followedBy more) = .ok a (s₁.followedBy more) ∧ FailsAlike more (f a) (f' a) s₁) ∨
        ∀ ⦃e s₂⦄, f a s₁ = .error e s₂ → e.isIncomplete = true) :
    FailsAlike more (act >>= f) (act' >>= f') s := by
  intro e s₂ he hdefinite
  rcases bind_error_iff.mp he with he | ⟨a, s₁, ha, he⟩
  · obtain ⟨e', s₃, he', hagrees⟩ := h he hdefinite
    exact ⟨e', s₃, bind_of_error he', hagrees⟩
  · rcases hok ha with ⟨ha', hf⟩ | hend
    · obtain ⟨e', s₃, he', hagrees⟩ := hf he hdefinite
      exact ⟨e', s₃, by rw [bind_of_ok ha', he'], hagrees⟩
    · rw [hend he] at hdefinite
      cases hdefinite

theorem InStep.keepsUp (h : InStep more act act' s) : KeepsUp more act act' s :=
  ⟨fun _ _ ha => .inl (h.ok ha), h.error⟩

theorem InStep.bind (h : InStep more act act' s)
    (hf : ∀ ⦃a s₁⦄, act s = .ok a s₁ → InStep more (f a) (f' a) s₁) :
    InStep more (act >>= f) (act' >>= f') s := by
  refine ⟨fun b s₂ hb => ?_, h.error.bind fun a s₁ ha => .inl ⟨h.ok ha, (hf ha).error⟩⟩
  obtain ⟨a, s₁, ha, hb⟩ := bind_ok_iff.mp hb
  rw [bind_of_ok (h.ok ha), (hf ha).ok hb]

theorem InStep.bind_keepsUp (h : InStep more act act' s)
    (hf : ∀ ⦃a s₁⦄, act s = .ok a s₁ → KeepsUp more (f a) (f' a) s₁) :
    KeepsUp more (act >>= f) (act' >>= f') s := by
  refine ⟨fun b s₂ hb => ?_, h.error.bind fun a s₁ ha => .inl ⟨h.ok ha, (hf ha).error⟩⟩
  obtain ⟨a, s₁, ha, hb⟩ := bind_ok_iff.mp hb
  rw [bind_of_ok (h.ok ha)]
  exact (hf ha).ok hb

/-- After an action that may have come to the end, the next one must be content there. -/
theorem KeepsUp.bind (h : KeepsUp more act act' s)
    (hf : ∀ ⦃a s₁⦄, act s = .ok a s₁ → KeepsUp more (f a) (f' a) s₁)
    (hend : ∀ a, StaysAtEnd (f a)) : KeepsUp more (act >>= f) (act' >>= f') s := by
  refine ⟨fun b s₂ hb => ?_, h.error.bind fun a s₁ ha => ?_⟩
  · obtain ⟨a, s₁, ha, hb⟩ := bind_ok_iff.mp hb
    rcases h.ok ha with hstep | hrest
    · rw [bind_of_ok hstep]
      exact (hf ha).ok hb
    · exact .inr ((hend a hrest).1 hb)
  · rcases h.ok ha with hstep | hrest
    · exact .inl ⟨hstep, (hf ha).error⟩
    · exact .inr (hend a hrest).2

/-- If the next action has to read something, there is no end of the text before it. -/
theorem KeepsUp.bind_inStep (h : KeepsUp more act act' s)
    (hf : ∀ ⦃a s₁⦄, act s = .ok a s₁ → InStep more (f a) (f' a) s₁)
    (hend : ∀ a, FailsAtEnd (f a)) : InStep more (act >>= f) (act' >>= f') s := by
  refine ⟨fun b s₂ hb => ?_, h.error.bind fun a s₁ ha => ?_⟩
  · obtain ⟨a, s₁, ha, hb⟩ := bind_ok_iff.mp hb
    rcases h.ok ha with hstep | hrest
    · rw [bind_of_ok hstep]
      exact (hf ha).ok hb
    · obtain ⟨e, s₃, he, -⟩ := hend a hrest
      cases hb.symm.trans he
  · rcases h.ok ha with hstep | hrest
    · exact .inl ⟨hstep, (hf ha).error⟩
    · obtain ⟨e, s₃, he, hincomplete⟩ := hend a hrest
      refine .inr fun e' s₄ he' => ?_
      cases he.symm.trans he'
      exact hincomplete

theorem InStep.pure (a : α) : InStep more (pure a) (pure a) s := by
  constructor
  · rintro b s₁ h
    cases h
    rfl
  · rintro e s₁ h
    cases h

theorem InStep.failWith {error error' : Scanner → ReadError}
    (h : (error s).isIncomplete = false → (error s).Agrees (error' (s.followedBy more))) :
    InStep more (failWith error : ReadM α) (failWith error') s := by
  constructor
  · rintro a s₁ ha
    cases ha
  · rintro e s₁ he hdefinite
    cases he
    exact ⟨_, _, rfl, h hdefinite⟩

theorem InStep.withHelp {message : String} (h : InStep more act act' s) :
    InStep more (withHelp message act) (withHelp message act') s := by
  constructor
  · intro a s₁ ha
    exact withHelp_ok_iff.mpr (h.ok (withHelp_ok_iff.mp ha))
  · intro e s₁ he hdefinite
    unfold ReadM.withHelp at he
    cases hact : act s with
    | ok a s₂ =>
      rw [hact] at he
      cases he
    | error d s₂ =>
      rw [hact] at he
      cases he
      obtain ⟨d', s₃, hd', hagrees⟩ := h.error hact hdefinite
      refine ⟨d'.addHelp message, s₃, ?_, hagrees.addHelp message⟩
      rw [ReadM.withHelp, hd']

theorem InStep.of_eq {b b' : ReadM α} {t : Scanner} (h : InStep more b b' t) (hact : act s = b t)
    (hact' : act' (s.followedBy more) = b' (t.followedBy more)) : InStep more act act' s := by
  constructor
  · intro a s₁ ha
    rw [hact']
    exact h.ok (hact ▸ ha)
  · intro e s₁ he
    rw [hact']
    exact h.error (hact ▸ he)

theorem InStep.of_incomplete {e : ReadError} {s₁ : Scanner} (he : act s = .error e s₁)
    (hincomplete : e.isIncomplete = true) : InStep more act act' s := by
  constructor
  · intro a s₂ ha
    rw [he] at ha
    cases ha
  · intro d s₂ hd hdefinite
    rw [he] at hd
    cases hd
    rw [hincomplete] at hdefinite
    cases hdefinite

theorem FailsAtEnd.inStep (h : FailsAtEnd act) (hs : significant s.rest = []) :
    InStep more act act' s := by
  obtain ⟨e, s₁, he, hincomplete⟩ := h hs
  exact .of_incomplete he hincomplete

theorem InStep.get {f f' : Scanner → ReadM β} (h : InStep more (f s) (f' (s.followedBy more)) s) :
    InStep more (get >>= f) (get >>= f') s :=
  ⟨h.ok, h.error⟩

theorem KeepsUp.get {f f' : Scanner → ReadM β}
    (h : KeepsUp more (f s) (f' (s.followedBy more)) s) :
    KeepsUp more (get >>= f) (get >>= f') s :=
  ⟨h.ok, h.error⟩

end Bind

section End

variable {act : ReadM α} {f : α → ReadM β}

theorem FailsAtEnd.staysAtEnd (h : FailsAtEnd act) : StaysAtEnd act := by
  intro s hs
  obtain ⟨e, s₁, he, hincomplete⟩ := h hs
  rw [he]
  constructor
  · rintro a s₂ ⟨⟩
  · rintro d s₂ ⟨⟩
    exact hincomplete

theorem FailsAtEnd.bind (h : FailsAtEnd act) : FailsAtEnd (act >>= f) := by
  intro s hs
  obtain ⟨e, s₁, he, hincomplete⟩ := h hs
  exact ⟨e, s₁, bind_of_error he, hincomplete⟩

theorem StaysAtEnd.bind_failsAtEnd (h : StaysAtEnd act) (hf : ∀ a, FailsAtEnd (f a)) :
    FailsAtEnd (act >>= f) := by
  intro s hs
  cases hact : act s with
  | ok a s₁ =>
    obtain ⟨e, s₂, he, hincomplete⟩ := hf a ((h hs).1 hact)
    exact ⟨e, s₂, by rw [bind_of_ok hact, he], hincomplete⟩
  | error e s₁ => exact ⟨e, s₁, bind_of_error hact, (h hs).2 hact⟩

theorem StaysAtEnd.bind (h : StaysAtEnd act) (hf : ∀ a, StaysAtEnd (f a)) :
    StaysAtEnd (act >>= f) := by
  intro s hs
  constructor
  · intro b s₂ hb
    obtain ⟨a, s₁, ha, hb⟩ := bind_ok_iff.mp hb
    exact (hf a ((h hs).1 ha)).1 hb
  · intro e s₂ he
    rcases bind_error_iff.mp he with he | ⟨a, s₁, ha, he⟩
    · exact (h hs).2 he
    · exact (hf a ((h hs).1 ha)).2 he

theorem StaysAtEnd.pure (a : α) : StaysAtEnd (pure a) := by
  intro s hs
  constructor
  · rintro b s₁ ⟨⟩
    exact hs
  · rintro e s₁ ⟨⟩

end End

end ReadM

end QueryDoc
