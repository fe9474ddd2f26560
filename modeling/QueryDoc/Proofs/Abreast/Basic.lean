import Mathlib.Data.List.Forall2
import QueryDoc.Proofs.Continuation.Basic
import QueryDoc.Proofs.Diagnostic.Places

/-! Reading a text and, abreast of it, the same text with its line breaks written in another way and
under the name of another file. The two scanners keep coming to the same places, and if one run stops
with an error, so does the other, with an error about the same place. -/

namespace QueryDoc

structure Respelling where
  source : List Char
  lineBreak : LineBreak
  file : Option String
  file' : Option String

namespace Respelling

variable (R : Respelling)

/-- Both scanners stand at the same place, the first one after the text `passed`. -/
structure Beside (passed : List Char) (s s' : Scanner) : Prop where
  here : Scanner.StandsAfter R.source passed s
  there : Scanner.StandsAfter (R.lineBreak.respell R.source) (R.lineBreak.respell passed) s'
  file : s.file = R.file
  file' : s'.file = R.file'

/-- Both scanners stand at the same place, which is not inside a line break. Only in the body of a
selection set do they ever come to stand elsewhere. -/
structure At (passed : List Char) (s s' : Scanner) : Prop extends R.Beside passed s s' where
  clean : CleanCut passed s.rest

/-- Both spans are spans over the same stretch, which does not begin inside a line break. What it
spans itself is written the same way. -/
structure Over (x : Stretch) (span span' : Span) : Prop where
  within : x.before ++ x.text <+: R.source
  clean : ∀ after, x.before ++ after = R.source → CleanCut x.before after
  here : span = .across R.file x
  there : span' = .across R.file' ⟨R.lineBreak.respell x.before, x.text⟩

/-- Both errors say the same about the same places, and about what stands there. -/
structure SameFault (e e' : ReadError) : Prop where
  message : e.message = e'.message
  cause : e.cause = e'.cause
  span : ∃ x, R.Over x e.span e'.span
  notes : List.Forall₂ (fun note note' => note.kind = note'.kind ∧ note.message = note'.message ∧
    Option.Rel (fun span span' => ∃ x, R.Over x span span') note.span note'.span) e.notes e'.notes
  names : e.cause.Names R.source (e.span.Marks R.source) fun x =>
    ∃ note ∈ e.notes, ∃ span ∈ note.span, span.Marks R.source x

variable {R}

theorem Over.marks {x : Stretch} {span span' : Span} (h : R.Over x span span') :
    span.Marks R.source x :=
  h.here ▸ Span.across_marks R.file h.within

section Fault

variable {e e' : ReadError} {message : String} {cause : Cause} {x y : Stretch}
  {span span' opening opening' : Span}

theorem SameFault.of_over (h : R.Over x span span')
    (hnames : cause.Names R.source (span.Marks R.source) fun _ => False) :
    R.SameFault { message, span, cause } { message, span := span', cause } :=
  ⟨rfl, rfl, ⟨x, h⟩, .nil, hnames.imp fun _ hfalse => hfalse.elim⟩

theorem SameFault.of_over_noted {text : String} (h : R.Over x span span')
    (hopening : R.Over y opening opening')
    (hnames : cause.Names R.source (span.Marks R.source) (opening.Marks R.source)) :
    R.SameFault { message, span, cause, notes := [⟨.general, text, some opening⟩] }
      { message, span := span', cause, notes := [⟨.general, text, some opening'⟩] } := by
  refine ⟨rfl, rfl, ⟨x, h⟩, .cons ⟨rfl, rfl, .some ⟨y, hopening⟩⟩ .nil, hnames.imp fun z hz => ?_⟩
  exact ⟨_, List.mem_singleton_self _, opening, rfl, hz⟩

/-- A remark that points nowhere changes nothing. -/
theorem SameFault.remark (h : R.SameFault e e') (kind : NoteKind) (message : String) :
    R.SameFault { e with notes := e.notes ++ [⟨kind, message, none⟩] }
      { e' with notes := e'.notes ++ [⟨kind, message, none⟩] } := by
  refine ⟨h.message, h.cause, h.span, ?_, h.names.imp fun x hx => ?_⟩
  · exact List.rel_append h.notes (.cons ⟨rfl, rfl, .none⟩ .nil)
  · obtain ⟨note, hnote, hmarks⟩ := hx
    exact ⟨note, List.mem_append_left _ hnote, hmarks⟩

theorem SameFault.spans (h : R.SameFault e e') :
    ∀ span ∈ e.spans, ∃ x span', R.Over x span span' := by
  have hnotes := List.rel_filterMap (fun _ _ hnote => hnote.2.2) h.notes
  have hspans := List.Forall₂.cons h.span hnotes
  have hleft : List.Forall₂ (fun span _ => (∃ x span', R.Over x span span') ∧ True) e.spans
      e'.spans := hspans.imp fun _ span' ⟨x, hx⟩ => ⟨⟨x, span', hx⟩, trivial⟩
  exact ((List.forall₂_and_left _ _).mp hleft).1

theorem SameFault.pointsInto (h : R.SameFault e e') : e.PointsInto R.source R.file := by
  have hmarks : ∀ span ∈ e.spans, ∃ x, span.Marks R.source x := by
    intro span hspan
    obtain ⟨x, _, hover⟩ := h.spans span hspan
    exact ⟨x, hover.marks⟩
  refine ⟨fun span hspan => ?_, hmarks, fun span hspan => ?_, h.names⟩
  · obtain ⟨x, _, hover⟩ := h.spans span hspan
    rw [hover.here]
    rfl
  · obtain ⟨x, hx⟩ := hmarks span hspan
    exact hx.bounds

end Fault

open ReadM

variable {α β γ δ : Type} {passed : List Char}

variable (R) in
/-- Both runs, which started after `passed`, come to a later place with values that belong together
there, or both stop with the same fault. -/
inductive Agree (passed : List Char) (value : List Char → α → β → Prop) :
    EStateM.Result ReadError Scanner α → EStateM.Result ReadError Scanner β → Prop
  | ok {now : List Char} {a : α} {b : β} {t t' : Scanner} :
      passed <+: now → R.At now t t' → value now a b → Agree passed value (.ok a t) (.ok b t')
  | error {e e' : ReadError} {t t' : Scanner} :
      R.SameFault e e' → Agree passed value (.error e t) (.error e' t')

section Rules

variable {value value' : List Char → α → β → Prop} {s s' : Scanner}

theorem Agree.since {now : List Char} {r : EStateM.Result ReadError Scanner α}
    {r' : EStateM.Result ReadError Scanner β} (h : R.Agree now value r r') (hnow : passed <+: now) :
    R.Agree passed value r r' := by
  cases h with
  | ok hlater hat hvalue => exact .ok (hnow.trans hlater) hat hvalue
  | error hfault => exact .error hfault

theorem Agree.imp {r : EStateM.Result ReadError Scanner α} {r' : EStateM.Result ReadError Scanner β}
    (h : R.Agree passed value r r')
    (hvalue : ∀ ⦃now a b⦄, passed <+: now → value now a b → value' now a b) :
    R.Agree passed value' r r' := by
  cases h with
  | ok hnow hat hab => exact .ok hnow hat (hvalue hnow hab)
  | error hfault => exact .error hfault

theorem Agree.bind {act : ReadM α} {act' : ReadM β} {f : α → ReadM γ} {f' : β → ReadM δ}
    {result : List Char → γ → δ → Prop} (h : R.Agree passed value (act s) (act' s'))
    (hf : ∀ ⦃now a b t t'⦄, act s = .ok a t → act' s' = .ok b t' → passed <+: now → R.At now t t' →
      value now a b → R.Agree now result (f a t) (f' b t')) :
    R.Agree passed result ((act >>= f) s) ((act' >>= f') s') := by
  generalize hr : act s = r at h
  generalize hr' : act' s' = r' at h
  cases h with
  | ok hnow hat hvalue =>
    rw [bind_of_ok hr, bind_of_ok hr']
    exact (hf hr hr' hnow hat hvalue).since hnow
  | error hfault =>
    rw [bind_of_error hr, bind_of_error hr']
    exact .error hfault

/-- After an action of which only the places and the values matter. -/
theorem Agree.next {act : ReadM α} {act' : ReadM β} {f : α → ReadM γ} {f' : β → ReadM δ}
    {result : List Char → γ → δ → Prop} (h : R.Agree passed value (act s) (act' s'))
    (hf : ∀ ⦃now a b t t'⦄, R.At now t t' → value now a b → R.Agree now result (f a t) (f' b t')) :
    R.Agree passed result ((act >>= f) s) ((act' >>= f') s') :=
  h.bind fun _ _ _ _ _ _ _ _ hat hvalue => hf hat hvalue

theorem Agree.pure {a : α} {b : β} (h : R.At passed s s') (hvalue : value passed a b) :
    R.Agree passed value ((pure a : ReadM α) s) ((pure b : ReadM β) s') :=
  .ok List.prefix_rfl h hvalue

/-- An action of which nothing but its success matters, before both runs return. -/
theorem Agree.thenPure {act : ReadM α} {act' : ReadM β} {c : γ} {d : δ}
    {result : List Char → γ → δ → Prop} (h : R.Agree passed value (act s) (act' s'))
    (hresult : ∀ now, result now c d) :
    R.Agree passed result ((act >>= fun _ => Pure.pure c) s)
      ((act' >>= fun _ => Pure.pure d) s') :=
  h.next fun now _ _ _ _ hat _ => .pure hat (hresult now)

theorem Agree.failWith {error error' : Scanner → ReadError} (h : R.SameFault (error s) (error' s')) :
    R.Agree passed value ((failWith error : ReadM α) s) ((failWith error' : ReadM β) s') :=
  .error h

theorem Agree.withHelp {act : ReadM α} {act' : ReadM β} {message : String}
    (h : R.Agree passed value (act s) (act' s')) :
    R.Agree passed value (withHelp message act s) (withHelp message act' s') := by
  unfold ReadM.withHelp
  generalize act s = r at h
  generalize act' s' = r' at h
  cases h with
  | ok hnow hat hvalue => exact .ok hnow hat hvalue
  | error hfault => exact .error (hfault.remark .help message)

end Rules

end Respelling

end QueryDoc
