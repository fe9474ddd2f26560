import QueryDoc.Document
import QueryDoc.Proofs.Abreast.Operation

/-! What two runs abreast show about one parser. With the same line breaks and another file it is seen
that the file appears in spans alone. With other line breaks it is seen that these do not matter. -/

namespace QueryDoc

open ReadM

namespace Respelling

variable {R : Respelling} {passed : List Char} {s s' : Scanner} {α : Type}

theorem finishDocument_agree (h : R.At passed s s') :
    R.Agree passed (fun _ _ _ => True) (Document.finish s) (Document.finish s') := by
  refine (peek?_agree h).bind ?_
  rintro mid c? _ t t' hpeek - - hat rfl
  cases c? with
  | none => exact .pure hat trivial
  | some c =>
    obtain ⟨cs, hs⟩ := Token.rest_of_peek? hpeek
    obtain rfl : s.skipIgnored = t := (EStateM.Result.ok.inj hpeek).2
    dsimp only
    split
    · next hc =>
      have hspan := hat.over_nextSpan hs
      have hnames : (Cause.unsupported .multipleDefinitions).Names R.source
          (s.skipIgnored.nextSpan.Marks R.source) fun _ => False := ⟨mid, c, hspan.marks, hc⟩
      exact .failWith ((SameFault.of_over hspan hnames).remark .general _)
    · have hfault := hat.unexpected s.endsRun_skipIgnored ["end of input"]
      refine .failWith ?_
      split
      · exact hfault.remark .general _
      · exact hfault

theorem readDocument_agree (limit : Nat) :
    R.Maps (Document.read limit) (Document.respell R.lineBreak) := by
  intro passed s s' h
  refine (readOperation_agree limit h).next ?_
  rintro _ op _ t t' hat rfl
  exact (finishDocument_agree hat).thenPure fun _ => rfl

/-- Reading a text as a whole, of which nothing but ignored input may be left. -/
theorem Maps.then_finish {act : ReadM α} {g : α → α} (h : R.Maps act g) :
    R.Maps (do let a ← act; Token.finish; return a) g := by
  intro passed s s' hat
  refine (h hat).next ?_
  rintro _ a _ t t' hat₁ rfl
  exact (finish_agree hat₁).thenPure fun _ => rfl

theorem at_start (R : Respelling) : R.At [] (.start R.source R.file)
    (.start (R.lineBreak.respell R.source) R.file') :=
  ⟨⟨Scanner.standsAfter_start _ _, Scanner.standsAfter_start _ _, rfl, rfl⟩, nofun⟩

theorem Maps.onText {act : ReadM α} {g : α → α} (h : R.Maps act g) :
    (∃ a, onText act R.source R.file = .ok a ∧
      onText act (R.lineBreak.respell R.source) R.file' = .ok (g a)) ∨
    ∃ e e', onText act R.source R.file = .error e ∧
      onText act (R.lineBreak.respell R.source) R.file' = .error e' ∧ R.SameFault e e' := by
  have hh := h R.at_start
  unfold ReadM.onText
  generalize act (.start R.source R.file) = r at hh
  generalize act (.start (R.lineBreak.respell R.source) R.file') = r' at hh
  cases hh with
  | @ok now a b t t' _ _ hvalue => exact .inl ⟨a, rfl, congrArg Except.ok hvalue⟩
  | @error e e' t t' hfault => exact .inr ⟨e, e', rfl, rfl, hfault⟩

section Faults

variable {e e' : ReadError}

theorem Over.alike {x : Stretch} {span span' : Span} (h : R.Over x span span')
    (hreturn : '\r' ∉ R.source) : span.Alike span' := by
  have hbefore : '\r' ∉ x.before := fun hmem =>
    hreturn (h.within.subset (List.mem_append_left _ hmem))
  rw [h.here, h.there]
  exact Span.across_alike R.lineBreak R.file R.file' hbefore

theorem SameFault.alike (h : R.SameFault e e') (hreturn : '\r' ∉ R.source) : e.Alike e' := by
  obtain ⟨x, hx⟩ := h.span
  refine ⟨h.message, h.cause, hx.alike hreturn, h.notes.imp ?_⟩
  rintro ⟨kind, message, span⟩ ⟨kind', message', span'⟩ ⟨hkind, hmessage, hspan⟩
  cases hspan with
  | none => exact ⟨hkind, hmessage, .none⟩
  | some hover =>
    obtain ⟨y, hy⟩ := hover
    exact ⟨hkind, hmessage, .some (hy.alike hreturn)⟩

theorem Over.eq_inFile {x : Stretch} {span span' : Span} (h : R.Over x span span')
    (hlf : R.lineBreak = .lf) : span' = { span with file := R.file' } := by
  rw [h.there, h.here, hlf, LineBreak.respell_lf]
  rfl

theorem SameFault.eq_inFile (h : R.SameFault e e') (hlf : R.lineBreak = .lf) :
    e' = e.inFile R.file' := by
  have hnotes : List.Forall₂ (· = ·) (e.inFile R.file').notes e'.notes := by
    refine List.forall₂_map_left_iff.mpr (h.notes.imp ?_)
    rintro ⟨kind, message, span⟩ ⟨kind', message', span'⟩ ⟨rfl, rfl, hspan⟩
    cases hspan with
    | none => rfl
    | some hover =>
      obtain ⟨y, hy⟩ := hover
      rw [hy.eq_inFile hlf]
      rfl
  rw [List.forall₂_eq_eq_eq] at hnotes
  obtain ⟨x, hx⟩ := h.span
  obtain ⟨message, span, cause, notes⟩ := e
  obtain ⟨message', span', cause', notes'⟩ := e'
  obtain rfl : message = message' := h.message
  obtain rfl : cause = cause' := h.cause
  obtain rfl := hx.eq_inFile hlf
  exact congrArg (ReadError.mk message _ cause) hnotes.symm

end Faults

end Respelling

section Parsers

variable {α : Type} {act : ReadM α} {g : LineBreak → α → α}

/-- What has been passed over is a beginning of the text, whatever has been read. -/
theorem exists_standsAfter_of_maps (hact : ∀ R : Respelling, R.Maps act (g R.lineBreak))
    {source : List Char} {file : Option String} {a : α} {s' : Scanner}
    (h : act (.start source file) = .ok a s') :
    (∃ passed, s'.StandsAfter source passed) ∧ s'.file = file := by
  let R : Respelling := { source, lineBreak := .lf, file, file' := file }
  have hh : R.Agree [] _ (act (.start source file)) _ := hact R R.at_start
  generalize act (.start (R.lineBreak.respell R.source) R.file') = r' at hh
  rw [h] at hh
  cases hh with
  | @ok now _ _ _ _ _ hat _ => exact ⟨⟨now, hat.here⟩, hat.file⟩

theorem sameFault_of_maps (hact : ∀ R : Respelling, R.Maps act (g R.lineBreak))
    {source : List Char} {file : Option String} {e : ReadError}
    (he : onText act source file = .error e) :
    ∃ e', Respelling.SameFault { source, lineBreak := .lf, file, file' := file } e e' := by
  let R : Respelling := { source, lineBreak := .lf, file, file' := file }
  rcases (hact R).onText with ⟨a, ha, -⟩ | ⟨d, d', hd, -, hfault⟩
  · cases ha.symm.trans he
  · cases hd.symm.trans he
    exact ⟨d', hfault⟩

theorem pointsInto_of_maps (hact : ∀ R : Respelling, R.Maps act (g R.lineBreak))
    {source : List Char} {file : Option String} {e : ReadError}
    (he : onText act source file = .error e) : e.PointsInto source file := by
  obtain ⟨e', hfault⟩ := sameFault_of_maps hact he
  exact hfault.pointsInto

/-- The spans of an error cover stretches of the text that do not begin inside a line break. -/
theorem exists_stretch_of_maps (hact : ∀ R : Respelling, R.Maps act (g R.lineBreak))
    {source : List Char} {file : Option String} {e : ReadError}
    (he : onText act source file = .error e) {span : Span} (hspan : span ∈ e.spans) :
    ∃ before text after, source = before ++ (text ++ after) ∧ CleanCut before (text ++ after) ∧
      span = .across file ⟨before, text⟩ := by
  obtain ⟨e', hfault⟩ := sameFault_of_maps hact he
  obtain ⟨⟨before, text⟩, _, hover⟩ := hfault.spans span hspan
  obtain ⟨after, hafter⟩ := hover.within
  rw [List.append_assoc] at hafter
  exact ⟨before, text, after, hafter.symm, hover.clean _ hafter, hover.here⟩

theorem onText_inFile (hact : ∀ R : Respelling, R.Maps act (g R.lineBreak)) (hg : ∀ a, g .lf a = a)
    (source : List Char) (file file' : Option String) :
    onText act source file' = (onText act source file).mapError (·.inFile file') := by
  let R : Respelling := { source, lineBreak := .lf, file, file' }
  have hsource : LineBreak.lf.respell source = source := LineBreak.respell_lf source
  rcases (hact R).onText with ⟨a, ha, ha'⟩ | ⟨e, e', he, he', hfault⟩
  · have hh : onText act source file' = .ok (g .lf a) := hsource ▸ ha'
    rw [hh, hg, show onText act source file = .ok a from ha]
    rfl
  · have hh : onText act source file' = .error e' := hsource ▸ he'
    rw [hh, hfault.eq_inFile rfl, show onText act source file = .error e from he]
    rfl

end Parsers

/-- Whatever is read, the spans of an error lie in the text and mark there what the error is about,
and nothing but these spans depends on the file. -/
theorem errors_point_into_source (source : List Char) (options : ReadOptions) :
    (∀ e, Document.parse source options = .error e ∨ Atom.parse source options = .error e ∨
        TypeRef.parse source options = .error e → e.PointsInto source options.file) ∧
      ∀ file,
        Document.parse source { options with file } =
          (Document.parse source options).mapError (·.inFile file) ∧
        Atom.parse source { options with file } =
          (Atom.parse source options).mapError (·.inFile file) ∧
        TypeRef.parse source { options with file } =
          (TypeRef.parse source options).mapError (·.inFile file) := by
  have hdocument (R : Respelling) := R.readDocument_agree options.depth
  have hatom (R : Respelling) := (R.readAtom_agree options.depth options.depth).then_finish
  have htype (R : Respelling) := (R.readType_agree options.depth options.depth).then_finish
  refine ⟨?_, fun file => ⟨?_, ?_, ?_⟩⟩
  · rintro e (he | he | he)
    · exact pointsInto_of_maps hdocument he
    · exact pointsInto_of_maps hatom he
    · exact pointsInto_of_maps (g := fun _ => id) htype he
  · exact onText_inFile hdocument Document.respell_lf source options.file file
  · exact onText_inFile hatom Atom.respell_lf source options.file file
  · exact onText_inFile (g := fun _ => id) htype (fun _ => rfl) source options.file file

theorem errors_point_into_source_duplicate_key :
    ∃ e, Atom.parse "\x7ba:X,a:Y\x7d".toList { file := some "q" } = .error e ∧
      e.cause = .duplicateField "a" ∧ e.PointsInto "\x7ba:X,a:Y\x7d".toList (some "q") := by
  obtain ⟨e, he, hcause⟩ : ∃ e, Atom.parse "\x7ba:X,a:Y\x7d".toList { file := some "q" } =
      .error e ∧ e.cause = .duplicateField "a" := ⟨_, rfl, rfl⟩
  exact ⟨e, he, hcause, (errors_point_into_source _ { file := some "q" }).1 e (.inr (.inl he))⟩

/-- However the line breaks of a text are written, the same documents are accepted, and errors say
the same of the same lines and columns. -/
theorem Document.parse_respell (b : LineBreak) (source : List Char) (h : '\r' ∉ source)
    (options : ReadOptions) :
    (parse (b.respell source) options).isOk = (parse source options).isOk ∧
      (∀ d, parse source options = .ok d → parse (b.respell source) options = .ok (d.respell b)) ∧
      ∀ e, parse source options = .error e →
        ∃ e', parse (b.respell source) options = .error e' ∧ e.Alike e' := by
  let R : Respelling := { source, lineBreak := b, file := options.file, file' := options.file }
  rcases (R.readDocument_agree options.depth).onText with ⟨d, hd, hd'⟩ | ⟨e, e', he, he', hfault⟩
  · have hleft : parse source options = .ok d := hd
    have hright : parse (b.respell source) options = .ok (d.respell b) := hd'
    rw [hleft, hright]
    exact ⟨rfl, fun _ heq => by cases heq; rfl, fun _ heq => by cases heq⟩
  · have hleft : parse source options = .error e := he
    have hright : parse (b.respell source) options = .error e' := he'
    rw [hleft, hright]
    refine ⟨rfl, fun _ heq => (by cases heq), fun _ heq => ?_⟩
    cases heq
    exact ⟨e', rfl, hfault.alike h⟩

theorem Document.parse_respell_crlf_body :
    ∃ d, parse "\x7ba\nb\x7d".toList = .ok d ∧
      parse "\x7ba\r\nb\x7d".toList = .ok (d.respell .crlf) := by
  have hd : parse "\x7ba\nb\x7d".toList =
      .ok { definitions := [{ selectionSet := .ofBody "a\nb" }] } := rfl
  have hsource : LineBreak.crlf.respell "\x7ba\nb\x7d".toList = "\x7ba\r\nb\x7d".toList := by
    decide
  have hread := (parse_respell .crlf "\x7ba\nb\x7d".toList (by decide) {}).2.1 _ hd
  exact ⟨_, hd, hsource ▸ hread⟩

end QueryDoc
