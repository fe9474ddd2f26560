import QueryDoc.Proofs.Abreast.Scanner
import QueryDoc.Proofs.Continuation.Token

/-! The tokens read abreast. A string is the one token that a line break can be part of. -/

namespace QueryDoc

theorem Token.rest_of_peek? {s t : Scanner} {c : Char} (h : Token.peek? s = .ok (some c) t) :
    ∃ cs, t.rest = c :: cs := by
  rw [Token.peek?_eq] at h
  obtain ⟨hhead, rfl⟩ : (significant s.rest).head? = some c ∧ s.skipIgnored = t := by
    simpa using h
  rw [Scanner.rest_skipIgnored]
  exact List.head?_eq_some_iff.mp hhead

namespace Respelling

open ReadM Token

variable {R : Respelling} {passed : List Char} {s s' : Scanner}

theorem At.head?_significant (h : R.At passed s s') :
    (significant s'.rest).head? = (significant s.rest).head? := by
  obtain ⟨now, -, hat⟩ := h.skipIgnored
  have hh := hat.peek? s.endsRun_skipIgnored
  rwa [Scanner.peek?, Scanner.rest_skipIgnored, Scanner.peek?, Scanner.rest_skipIgnored] at hh

theorem peek?_agree (h : R.At passed s s') :
    R.Agree passed (fun _ c d => c = d) (peek? s) (peek? s') := by
  obtain ⟨now, hnow, hat⟩ := h.skipIgnored
  rw [peek?_eq, peek?_eq]
  exact .ok hnow hat h.head?_significant.symm

theorem peek_agree (h : R.At passed s s') (expected : String) :
    R.Agree passed (fun _ c d => c = d) (peek expected s) (peek expected s') := by
  obtain ⟨now, hnow, hat⟩ := h.skipIgnored
  rw [peek, bind_of_ok (peek?_eq s), bind_of_ok (peek?_eq s'), h.head?_significant]
  cases hs : (significant s.rest).head? with
  | none => exact .error (hat.endOfInput (by simpa using hs) [expected])
  | some c => exact .ok hnow hat rfl

theorem peekInside_agree (h : R.At passed s s') {delimiter : String} {before : List Char}
    {opening opening' : Span} (hopening : R.Over ⟨before, delimiter.toList⟩ opening opening') :
    R.Agree passed (fun _ c d => c = d) (peekInside delimiter opening s)
      (peekInside delimiter opening' s') := by
  obtain ⟨now, hnow, hat⟩ := h.skipIgnored
  rw [peekInside, peekInside, bind_of_ok (peek?_eq s), bind_of_ok (peek?_eq s'),
    h.head?_significant]
  cases hs : (significant s.rest).head? with
  | none => exact .error (hat.unclosed (by simpa using hs) hopening)
  | some c => exact .ok hnow hat rfl

/-- The span of a text that has just been passed over. -/
def Passed (R : Respelling) (text : List Char) (now : List Char) (span span' : Span) : Prop :=
  ∃ before, now = before ++ text ∧ R.Over ⟨before, text⟩ span span'

theorem literal_agree_of_significant (h : R.At passed s s') {text : String} {rest : List Char}
    (hs : significant s.rest = text.toList ++ rest) (htext : ∀ c ∈ text.toList, isLineEnd c = false) :
    R.Agree passed (R.Passed text.toList) (literal text s) (literal text s') := by
  obtain ⟨now, hnow, hat⟩ := h.skipIgnored
  have hrest : s.skipIgnored.rest = text.toList ++ rest := by rw [Scanner.rest_skipIgnored, hs]
  have hrest' : s'.skipIgnored.rest = text.toList ++ R.lineBreak.respell rest := by
    rw [hat.rest, hrest, LineBreak.respell_append, LineBreak.respell_eq_self htext]
  have hpass : passOver text text.toList s.skipIgnored =
      .ok () (s.skipIgnored.advanceBy text.toList.length) :=
    passOver_ok_iff.mpr ⟨⟨rest, hrest.symm⟩, rfl⟩
  have hpass' : passOver text text.toList s'.skipIgnored =
      .ok () (s'.skipIgnored.advanceBy text.toList.length) :=
    passOver_ok_iff.mpr ⟨⟨_, hrest'.symm⟩, rfl⟩
  have hafter : (s.skipIgnored.advanceBy text.toList.length).rest = rest := by
    rw [Scanner.rest_advanceBy, hrest, List.drop_left]
  have hsplit : s.skipIgnored.rest =
      text.toList ++ (s.skipIgnored.advanceBy text.toList.length).rest := by rw [hafter, hrest]
  have hbeside := hat.advanceBy hsplit (n := text.toList.length)
    (by rw [Scanner.rest_advanceBy, hrest', List.drop_left, hafter])
  have hat' : R.At _ _ _ := ⟨hbeside, CleanCut.append (hsplit ▸ hat.clean) htext⟩
  rw [literal_eq, hpass, literal_eq, hpass']
  exact .ok (hnow.trans (List.prefix_append _ _)) hat'
    ⟨now, rfl, hat.over_spanFrom hat' hsplit htext⟩

theorem literal_agree (h : R.At passed s s') {text : String} {c : Char}
    (htext : text.toList = [c]) :
    R.Agree passed (R.Passed text.toList) (literal text s) (literal text s') := by
  obtain ⟨now, hnow, hat⟩ := h.skipIgnored
  by_cases hpeek : s.skipIgnored.peek? = some c
  · obtain ⟨cs, hcs⟩ := List.head?_eq_some_iff.mp hpeek
    have hc : isLineEnd c = false := endsRun_cons.mp (hcs ▸ s.endsRun_skipIgnored)
    have hs : significant s.rest = text.toList ++ cs := by
      rw [← Scanner.rest_skipIgnored, hcs, htext, List.singleton_append]
    exact literal_agree_of_significant h hs (by simpa [htext] using hc)
  · have hpeek' : s'.skipIgnored.peek? ≠ some c := by rwa [hat.peek? s.endsRun_skipIgnored]
    rw [literal_eq, htext, passOver_cons, if_neg hpeek, literal_eq, htext, passOver_cons,
      if_neg hpeek']
    exact .error (hat.unexpected s.endsRun_skipIgnored [text])

theorem not_isNameContinue_of_isLineEnd : ∀ c, isLineEnd c = true → isNameContinue c = false :=
  LineBreak.same_on_lineEnds (p := isNameContinue) rfl

theorem isLineEnd_of_mem_name {name : List Char} (h : isName name = true) :
    ∀ c ∈ name, isLineEnd c = false := by
  intro c hc
  have hh := isNameContinue_of_isName h c hc
  refine Bool.eq_false_iff.mpr fun hend => ?_
  rw [not_isNameContinue_of_isLineEnd c hend] at hh
  cases hh

theorem name?_agree (h : R.At passed s s') :
    R.Agree passed (fun _ n m => n = m) (Token.name? s) (Token.name? s') := by
  obtain ⟨now, hnow, hat⟩ := h.skipIgnored
  have hrun := hat.skipRun (LineBreak.same_on_lineEnds (p := isNameContinue) rfl)
  rw [Token.name?, bind_of_ok (peek?_eq s), bind_of_ok (peek?_eq s'), h.head?_significant]
  cases (significant s.rest).head? with
  | none => exact .ok hnow hat rfl
  | some c =>
    dsimp only
    split
    · refine .ok (hnow.trans (List.prefix_append _ _)) hrun ?_
      rw [hat.run_eq not_isNameContinue_of_isLineEnd]
    · exact .ok hnow hat rfl

theorem name_agree (h : R.At passed s s') :
    R.Agree passed (fun _ n m => n = m) (name s) (name s') := by
  refine (peek_agree h "name").next fun mid c _ t t' hmid _ => ?_
  refine (name?_agree hmid).bind ?_
  rintro now n? _ u u' hname - - hat rfl
  cases n? with
  | some n => exact .pure hat rfl
  | none =>
    rcases name?_ok hname with ⟨n, hn, -⟩ | ⟨-, rfl, -⟩
    · cases hn
    · exact .failWith (hat.unexpected t.endsRun_skipIgnored ["name"])

theorem wrongKeyword_sameFault {before word rest : List Char} {keyword : String}
    {span span' : Span} (h : R.Over ⟨before, word⟩ span span')
    (hsource : R.source = before ++ (word ++ rest)) (hname : isName word = true)
    (hends : EndsRun isNameContinue rest) (hkeyword : keyword ∈ ["true", "false", "null"])
    (hne : word ≠ keyword.toList) :
    R.SameFault (.wrongKeyword keyword.toList word span)
      (.wrongKeyword keyword.toList word span') := by
  obtain ⟨c, cs, hcons, -⟩ := exists_cons_of_isName hname
  have hword : word ≠ [] := hcons ▸ List.cons_ne_nil c cs
  obtain ⟨found, hfound, hcause⟩ :=
    ReadError.exists_found_of_wrongKeyword keyword.toList hword span
  have hnames : (ReadError.wrongKeyword keyword.toList word span).cause.Names R.source
      (span.Marks R.source) fun _ => False := by
    rw [hcause]
    have hexpected : [String.ofList keyword.toList] = [keyword] := by rw [String.ofList_toList]
    exact .inr ⟨before, word, rest, keyword, h.marks, hsource, hname, hends, hfound, hexpected,
      hkeyword, hne⟩
  exact .of_over h hnames

/-- A word in place of the keyword is the same on both sides. Only the keywords of values are read
where another word may stand. -/
theorem keyword_agree (h : R.At passed s s') {word : String}
    (hword : leadingName? (significant s.rest) = some word.toList ∨
      word ∈ ["true", "false", "null"]) :
    R.Agree passed (fun _ _ _ => True) (keyword word s) (keyword word s') := by
  obtain ⟨now, hnow, hat⟩ := h.skipIgnored
  have hlead : leadingName? (significant s'.rest) = leadingName? (significant s.rest) := by
    rw [h.rest, LineBreak.significant_respell, LineBreak.leadingName?_respell]
  rw [keyword_eq, keyword_eq, hlead]
  cases hfound : leadingName? (significant s.rest) with
  | none => exact .error (hat.unexpected s.endsRun_skipIgnored [word])
  | some found =>
    obtain ⟨hname, rest, hrest, hends⟩ := leadingName?_eq_some hfound
    have hline := isLineEnd_of_mem_name hname
    dsimp only
    by_cases he : found = word.toList
    · rw [if_pos he, if_pos he]
      have hs : significant s.skipIgnored.rest = word.toList ++ rest := by
        rw [Scanner.rest_skipIgnored, significant_significant, hrest, he]
      have hlit := (literal_agree_of_significant hat hs (he ▸ hline)).since hnow
      exact hlit.imp fun _ _ _ _ _ => trivial
    · rw [if_neg he, if_neg he]
      have hkeyword : word ∈ ["true", "false", "null"] := by
        refine hword.resolve_left fun hh => he ?_
        exact Option.some.inj (hfound.symm.trans hh)
      have hrun : s.skipIgnored.run isNameContinue = found := by
        rw [Scanner.run, Scanner.rest_skipIgnored, hrest]
        exact takeWhile_append_of_endsRun (isNameContinue_of_isName hname) hends
      have hat' := hat.skipRun (LineBreak.same_on_lineEnds (p := isNameContinue) rfl)
      have hsplit : s.skipIgnored.rest = found ++ (s.skipIgnored.skipRun isNameContinue).rest := by
        rw [← hrun, Scanner.run_append_rest_skipRun]
      have hspan := hat.over_spanFrom hat' hsplit hline
      have hsource : R.source = now ++ (found ++ rest) := by
        rw [← hat.here.split, Scanner.rest_skipIgnored, hrest]
      exact .error (wrongKeyword_sameFault hspan hsource hname hends hkeyword he)

theorem string_agree (h : R.At passed s s') :
    R.Agree passed (fun _ a b => b = R.lineBreak.text a) (string s) (string s') := by
  have hlit : R.Agree passed (R.Passed _) (literal "\"" s) (literal "\"" s') := literal_agree h (by rfl)
  generalize hr : literal "\"" s = r at hlit
  generalize hr' : literal "\"" s' = r' at hlit
  cases hlit with
  | error hfault =>
    have he : string s = .error _ _ := bind_of_error hr
    have he' : string s' = .error _ _ := bind_of_error hr'
    rw [he, he']
    exact .error hfault
  | @ok now opening opening' t t' hnow hat hopening =>
    obtain ⟨before, rfl, hover⟩ := hopening
    have hquote : '"' ∈ t'.rest ↔ '"' ∈ t.rest := by
      rw [hat.rest]
      exact LineBreak.mem_respell_iff rfl
    rw [string_of_literal hr, string_of_literal hr']
    by_cases hmem : '"' ∈ t.rest
    · rw [if_pos hmem, if_pos (hquote.mpr hmem)]
      have hp := LineBreak.same_on_lineEnds (p := (· != '"')) rfl
      obtain ⟨rest, hrest⟩ := Scanner.exists_rest_skipRun hmem
      have hat' : R.At _ _ _ :=
        ⟨(hat.skipRun hp).advance hrest (by decide), cleanCut_concat (by decide) _ _⟩
      refine .ok (hnow.trans ?_) hat' ?_
      · rw [List.append_assoc]
        exact List.prefix_append _ _
      · rw [hat.run hp, LineBreak.text, String.toList_ofList]
    · rw [if_neg hmem, if_neg fun hh => hmem (hquote.mp hh)]
      refine .error ((SameFault.of_over hover ?_).remark .general _)
      refine ⟨before, t.rest, hover.marks, ?_, hmem⟩
      rw [← hat.here.split, List.append_assoc]
      rfl

theorem finish_agree (h : R.At passed s s') :
    R.Agree passed (fun _ _ _ => True) (finish s) (finish s') := by
  refine (peek?_agree h).bind ?_
  rintro now c? _ t t' hpeek - - hat rfl
  cases c? with
  | none => exact .pure hat trivial
  | some c =>
    obtain rfl : s.skipIgnored = t := (EStateM.Result.ok.inj hpeek).2
    exact .failWith (hat.unexpected s.endsRun_skipIgnored ["end of input"])

end Respelling

end QueryDoc
