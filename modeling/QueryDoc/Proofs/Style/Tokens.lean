import QueryDoc.Proofs.Atom.Spelling
import QueryDoc.Proofs.Grammar.Extension
import QueryDoc.Proofs.Selection.Balance

/-! The tokens of any text, whether or not it can be read. Names and numbers are runs that go on as
long as they can, a string goes on to the next quote, any other character that is not ignored is a
token of its own. What follows a text does not change its tokens, as long as it goes on with no name or
number, and the text does not end in a string or a comment that would go on. -/

namespace QueryDoc

/-- How long the token is with which a text begins. A string without a second quote takes all there is. -/
def tokenLength : List Char → Nat
  | [] => 0
  | c :: cs =>
    if isNameStart c then (cs.takeWhile isNameContinue).length + 1
    else if isNumberStart c then (cs.takeWhile isNumberContinue).length + 1
    else if c = '"' then (cs.takeWhile (· != '"')).length + 2
    else 1

theorem tokenLength_pos {cs : List Char} (h : cs ≠ []) : 0 < tokenLength cs := by
  obtain ⟨c, rest, rfl⟩ := List.exists_cons_of_ne_nil h
  rw [tokenLength]
  (repeat' split) <;> exact Nat.succ_pos _

/-- The tokens of a text are the first one after ignored input and those of what is left then. -/
def tokens (cs : List Char) : List (List Char) :=
  if significant cs = [] then []
  else
    (significant cs).take (tokenLength (significant cs)) ::
      tokens ((significant cs).drop (tokenLength (significant cs)))
termination_by cs.length
decreasing_by
  next h =>
  have hle := (ignored_significant cs).suffix.length_le
  have hpos := tokenLength_pos h
  have hne := List.length_pos_iff.mpr h
  rw [List.length_drop]
  omega

theorem tokens_eq_of_significant {cs ds : List Char} (h : significant cs = significant ds) :
    tokens cs = tokens ds := by
  rw [tokens.eq_def cs, tokens.eq_def ds, h]

theorem tokens_of_ignored {cs rest : List Char} (h : Ignored cs rest) : tokens cs = tokens rest :=
  tokens_eq_of_significant (significant_eq_of_ignored h)

variable {c : Char} {cs rest : List Char}

/-- The token at the beginning of a text is the first of its tokens. -/
theorem tokens_append_of_length (hc : isSignificant c = true)
    (hlength : tokenLength (c :: (cs ++ rest)) = cs.length + 1) :
    tokens (c :: (cs ++ rest)) = (c :: cs) :: tokens rest := by
  rw [tokens, significant_cons hc, if_neg (List.cons_ne_nil _ _), hlength, List.take_succ_cons,
    List.drop_succ_cons, List.take_left, List.drop_left]

theorem tokens_name (hc : isNameStart c = true) (hcs : ∀ d ∈ cs, isNameContinue d = true)
    (hrest : EndsRun isNameContinue rest) :
    tokens (c :: (cs ++ rest)) = (c :: cs) :: tokens rest := by
  refine tokens_append_of_length (isSignificant_of_isNameStart hc) ?_
  rw [tokenLength, if_pos hc, takeWhile_append_of_endsRun hcs hrest]

theorem tokens_number (hc : isNumberStart c = true) (hcs : ∀ d ∈ cs, isNumberContinue d = true)
    (hrest : EndsRun isNumberContinue rest) :
    tokens (c :: (cs ++ rest)) = (c :: cs) :: tokens rest := by
  have hname : ¬isNameStart c = true := by
    intro h
    rw [isNumberStart_of_isNameStart h] at hc
    cases hc
  refine tokens_append_of_length (SpellsAtom.isSignificant_of_isNumberStart hc) ?_
  rw [tokenLength, if_neg hname, if_pos hc, takeWhile_append_of_endsRun hcs hrest]

theorem tokens_string (hcs : '"' ∉ cs) :
    tokens ('"' :: (cs ++ '"' :: rest)) = ('"' :: (cs ++ ['"'])) :: tokens rest := by
  have hall : ∀ d ∈ cs, (d != '"') = true := by
    intro d hd
    simpa using fun he : d = '"' => hcs (he ▸ hd)
  have hrun : (cs ++ '"' :: rest).takeWhile (· != '"') = cs :=
    takeWhile_append_of_endsRun hall (endsRun_cons.mpr (by decide))
  have hlength : tokenLength ('"' :: (cs ++ '"' :: rest)) = (cs ++ ['"']).length + 1 := by
    rw [tokenLength, if_neg (by decide), if_neg (by decide), if_pos rfl, hrun]
    simp
  rw [List.append_cons] at hlength ⊢
  exact tokens_append_of_length (by decide) hlength

/-- The characters that are tokens of their own. -/
def isMark (c : Char) : Bool :=
  isSignificant c && !isNameStart c && !isNumberStart c && c != '"'

theorem tokens_mark (hc : isMark c = true) (rest : List Char) :
    tokens (c :: rest) = [c] :: tokens rest := by
  simp only [isMark, Bool.and_eq_true, Bool.not_eq_true', bne_iff_ne, ne_eq] at hc
  obtain ⟨⟨⟨hsig, hname⟩, hnumber⟩, hquote⟩ := hc
  have hlength : tokenLength (c :: ([] ++ rest)) = 1 := by
    simp [tokenLength, hname, hnumber, hquote]
  exact tokens_append_of_length hsig hlength

theorem SpellsName.tokens_eq {input : List Char} {name : String} (h : SpellsName input name rest) :
    tokens input = name.toList :: tokens rest := by
  obtain ⟨c, cs, hname, hc⟩ := exists_cons_of_isName h.isName
  have hcs := (isName_cons_iff.mp (hname ▸ h.isName)).2
  rw [tokens_of_ignored h.spelled, hname, List.cons_append, tokens_name hc hcs h.ends]

/-- Whatever a reader takes for a name, a string, a number or a mark is the first token of what it
reads from. -/
theorem tokens_eq_of_read {s s' : Scanner} :
    (∀ name, Token.name s = .ok name s' → tokens s.rest = name.toList :: tokens s'.rest) ∧
    (∀ text, Token.string s = .ok text s' →
      tokens s.rest = ('"' :: (text.toList ++ ['"'])) :: tokens s'.rest) ∧
    (∀ c a, s.peek? = some c → isNumberStart c = true → Atom.readNumber s = .ok a s' →
      tokens s.rest = s.run isNumberContinue :: tokens s'.rest) ∧
    ∀ c text span, isMark c = true → text.toList = [c] → Token.literal text s = .ok span s' →
      tokens s.rest = [c] :: tokens s'.rest := by
  refine ⟨fun name h => (Token.name_ok h).tokens_eq, fun text h => ?_, fun c a hc hstart h => ?_,
    fun c text span hc htext h => ?_⟩
  · obtain ⟨hrest, htext⟩ := Token.string_ok h
    rw [tokens_of_ignored (ignored_significant s.rest), hrest, tokens_string htext]
  · obtain ⟨cs, hcs⟩ := List.head?_eq_some_iff.mp hc
    obtain ⟨hrest, -⟩ := Atom.readNumber_ok h
    have hcontinue := isNumberContinue_of_isNumberStart hstart
    have hall : ∀ d ∈ cs.takeWhile isNumberContinue, isNumberContinue d = true :=
      fun d hd => List.mem_takeWhile_imp hd
    have hh := tokens_number hstart hall (endsRun_dropWhile isNumberContinue cs)
    rw [List.takeWhile_append_dropWhile] at hh
    rw [hrest, Scanner.run, hcs, List.takeWhile_cons_of_pos hcontinue,
      List.dropWhile_cons_of_pos hcontinue, hh]
  · have hrest := Token.literal_ok h
    rw [tokens_of_ignored (ignored_significant s.rest), hrest, htext, List.cons_append,
      List.nil_append, tokens_mark hc]

example : tokens "a(b:-1.5e,c) #d\n\"e f\"".toList =
    ["a".toList, ['('], ['b'], [':'], "-1.5e".toList, ['c'], [')'], "\"e f\"".toList] := by
  cbv

/-! ### Texts that end outside of strings -/

namespace BodyPlace

theorem step_code {c : Char} (hc : c ≠ '"') (hc' : c ≠ '#') : step .code c = .code := by
  simp only [step, BodyScan.step]
  (repeat' split) <;> simp_all

theorem after_string {cs : List Char} (h : '"' ∉ cs) : after .string cs = .string := by
  induction cs with
  | nil => rfl
  | cons c cs ih =>
    have hh := not_or.mp (List.mem_cons.not.mp h)
    have hstep : step .string c = .string := by
      simp [step, BodyScan.step, Ne.symm hh.1]
    rw [after, List.foldl_cons, hstep]
    exact ih hh.2

theorem after_comment {cs : List Char} (h : ∀ c ∈ cs, isLineEnd c = false) :
    after .comment cs = .comment := by
  induction cs with
  | nil => rfl
  | cons c cs ih =>
    obtain ⟨hc, hcs⟩ := List.forall_mem_cons.mp h
    rw [after, List.foldl_cons, step_eq_comment_iff.mpr (.inr ⟨rfl, hc⟩)]
    exact ih hcs

end BodyPlace

theorem Balanced.after_eq (h : Balanced cs) : BodyPlace.after .code cs = .code :=
  (BodyScan.place_of_run (balanced_iff_run.mp h)).symm

/-- Whatever follows a text, its tokens are the same, as long as that goes on with no name or number,
and with no comment that is open at the end of the text. -/
def KeepsTokens (cs : List Char) : Prop :=
  ∃ ts, ∀ rest, EndsRun isTokenContinue rest →
    (BodyPlace.after .code cs = .comment → EndsRun (!isLineEnd ·) rest) →
    tokens (cs ++ rest) = ts ++ tokens rest

theorem KeepsTokens.nil : KeepsTokens [] :=
  ⟨[], fun _ _ _ => rfl⟩

theorem KeepsTokens.prepend {front : List Char} (ts : List (List Char))
    (hcode : BodyPlace.after .code front = .code) (h : KeepsTokens cs)
    (hfront : ∀ rest, EndsRun isTokenContinue rest →
      tokens (front ++ (cs ++ rest)) = ts ++ tokens (cs ++ rest)) : KeepsTokens (front ++ cs) := by
  obtain ⟨us, hus⟩ := h
  refine ⟨ts ++ us, fun rest hrest hcomment => ?_⟩
  rw [BodyPlace.after_append, hcode] at hcomment
  rw [List.append_assoc, hfront rest hrest, hus rest hrest hcomment, List.append_assoc]

theorem KeepsTokens.of_comment (h : ∀ d ∈ cs, isLineEnd d = false) : KeepsTokens ('#' :: cs) := by
  refine ⟨[], fun rest _ hcomment => ?_⟩
  exact tokens_of_ignored (.comment h (hcomment (BodyPlace.after_comment h)) (.done rest))

theorem exists_line_end (cs : List Char) :
    (∀ c ∈ cs, isLineEnd c = false) ∨ ∃ text c rest, cs = text ++ c :: rest ∧
      (∀ d ∈ text, isLineEnd d = false) ∧ isLineEnd c = true := by
  induction cs with
  | nil => exact .inl nofun
  | cons c cs ih =>
    cases hc : isLineEnd c with
    | true => exact .inr ⟨[], c, cs, rfl, nofun, hc⟩
    | false =>
      rcases ih with hcs | ⟨text, d, rest, rfl, htext, hd⟩
      · exact .inl (List.forall_mem_cons.mpr ⟨hc, hcs⟩)
      · exact .inr ⟨c :: text, d, rest, rfl, List.forall_mem_cons.mpr ⟨hc, htext⟩, hd⟩

/-- The text begins with ignored input or a token, after which a scan is in the code again, and the
same is taken off first whatever follows. -/
def Begins (cs front rest : List Char) : Prop :=
  cs = front ++ rest ∧ front ≠ [] ∧ BodyPlace.after .code front = .code ∧
    ∃ ts, ∀ more, EndsRun isTokenContinue more →
      tokens (front ++ (rest ++ more)) = ts ++ tokens (rest ++ more)

theorem begins_string (hcs : '"' ∉ cs) (rest : List Char) :
    Begins ('"' :: (cs ++ '"' :: rest)) ('"' :: (cs ++ ['"'])) rest := by
  refine ⟨by simp, List.cons_ne_nil _ _, (Balanced.string hcs .nil).after_eq,
    ['"' :: (cs ++ ['"'])], fun more _ => ?_⟩
  have hh := @tokens_string cs (rest ++ more) hcs
  simpa using hh

theorem begins_comment (hcs : ∀ d ∈ cs, isLineEnd d = false) (hc : isLineEnd c = true)
    (rest : List Char) : Begins ('#' :: (cs ++ c :: rest)) ('#' :: (cs ++ [c])) rest := by
  refine ⟨by simp, List.cons_ne_nil _ _, (Balanced.comment hcs hc .nil).after_eq, [],
    fun more _ => ?_⟩
  have hline : Ignored ('#' :: (cs ++ c :: (rest ++ more))) (c :: (rest ++ more)) :=
    .comment hcs (endsRun_cons.mpr (by simp [hc])) (.done _)
  have hh := tokens_of_ignored (hline.trans (ignored_space (isSpace_of_isLineEnd hc) _))
  simpa using hh

theorem begins_name (hc : isNameStart c = true) (cs : List Char) :
    Begins (c :: cs) (c :: cs.takeWhile isNameContinue) (cs.dropWhile isNameContinue) := by
  have hall : ∀ d ∈ cs.takeWhile isNameContinue, isNameContinue d = true :=
    fun d hd => List.mem_takeWhile_imp hd
  have hcode := (balanced_name (isName_cons_iff.mpr ⟨hc, hall⟩)).after_eq
  refine ⟨by simp, List.cons_ne_nil _ _, hcode, [c :: cs.takeWhile isNameContinue],
    fun more hmore => ?_⟩
  exact tokens_name hc hall ((endsRun_dropWhile _ cs).append hmore.isNameContinue)

theorem begins_number (hc : isNumberStart c = true) (cs : List Char) :
    Begins (c :: cs) (c :: cs.takeWhile isNumberContinue) (cs.dropWhile isNumberContinue) := by
  have hall : ∀ d ∈ cs.takeWhile isNumberContinue, isNumberContinue d = true :=
    fun d hd => List.mem_takeWhile_imp hd
  have hcode := (balanced_number hc hall).after_eq
  refine ⟨by simp, List.cons_ne_nil _ _, hcode, [c :: cs.takeWhile isNumberContinue],
    fun more hmore => ?_⟩
  exact tokens_number hc hall ((endsRun_dropWhile _ cs).append hmore.isNumberContinue)

theorem begins_single (hquote : c ≠ '"') (hsign : c ≠ '#') (ts : List (List Char))
    (hc : ∀ rest, tokens (c :: rest) = ts ++ tokens rest) (cs : List Char) : Begins (c :: cs) [c] cs :=
  ⟨rfl, List.cons_ne_nil _ _, BodyPlace.step_code hquote hsign, ts, fun _ _ => hc _⟩

theorem keepsTokens_cons (h : BodyPlace.after .code (c :: cs) ≠ .string) :
    KeepsTokens (c :: cs) ∨ ∃ front rest, Begins (c :: cs) front rest := by
  by_cases hquote : c = '"'
  · subst hquote
    by_cases hmem : '"' ∈ cs
    · obtain ⟨text, rest, rfl, htext⟩ := List.eq_append_cons_of_mem hmem
      exact .inr ⟨_, _, begins_string htext rest⟩
    · exact absurd (BodyPlace.after_string hmem) h
  by_cases hsign : c = '#'
  · subst hsign
    rcases exists_line_end cs with hcs | ⟨text, d, rest, rfl, htext, hd⟩
    · exact .inl (.of_comment hcs)
    · exact .inr ⟨_, _, begins_comment htext hd rest⟩
  by_cases hblank : (isSpace c || c == ',') = true
  · have hc : ∀ rest, tokens (c :: rest) = tokens rest :=
      fun rest => tokens_of_ignored (ignored_space hblank rest)
    exact .inr ⟨_, _, begins_single hquote hsign [] hc cs⟩
  by_cases hname : isNameStart c = true
  · exact .inr ⟨_, _, begins_name hname cs⟩
  by_cases hnumber : isNumberStart c = true
  · exact .inr ⟨_, _, begins_number hnumber cs⟩
  have hmark : isMark c = true := by
    simp_all [isMark, isSignificant]
  exact .inr ⟨_, _, begins_single hquote hsign [[c]] (tokens_mark hmark) cs⟩

/-- A text keeps its tokens unless it ends in a string. -/
theorem keepsTokens_of_after (h : BodyPlace.after .code cs ≠ .string) : KeepsTokens cs := by
  induction hn : cs.length using Nat.strongRecOn generalizing cs with
  | ind n ih =>
    cases cs with
    | nil => exact .nil
    | cons c cs =>
      rcases keepsTokens_cons h with hkeeps | ⟨front, rest, heq, hne, hcode, ts, hts⟩
      · exact hkeeps
      · rw [heq, BodyPlace.after_append, hcode] at h
        have hlen : rest.length < n := by
          have hpos := List.length_pos_iff.mpr hne
          rw [← hn, heq, List.length_append]
          omega
        rw [heq]
        exact .prepend ts hcode (ih _ hlen h rfl) hts

end QueryDoc
