import QueryDoc.Proofs.Source.Ignored
import QueryDoc.Proofs.Source.Position
import QueryDoc.Proofs.Text.Trim

/-! Texts whose line breaks are written in another way. However it is written, a line break is white
space, ends a comment and is no part of any token but a string, so that a text falls into the same
pieces. Lines and columns stay the same if no carriage return stood in the text before. -/

namespace QueryDoc

inductive LineBreak where
  | lf
  | cr
  | crlf
deriving DecidableEq, Repr

namespace LineBreak

def chars : LineBreak → List Char
  | lf => ['\n']
  | cr => ['\r']
  | crlf => ['\r', '\n']

/-- The text with each of its line feeds written as this line break. -/
def respell (b : LineBreak) (cs : List Char) : List Char :=
  cs.flatMap fun c => if c = '\n' then b.chars else [c]

def text (b : LineBreak) (text : String) : String :=
  String.ofList (b.respell text.toList)

variable {b : LineBreak} {c : Char} {cs ds : List Char}

theorem chars_eq_cons (b : LineBreak) : ∃ c cs, b.chars = c :: cs ∧ isLineEnd c = true := by
  cases b with
  | lf => exact ⟨'\n', [], rfl, rfl⟩
  | cr => exact ⟨'\r', [], rfl, rfl⟩
  | crlf => exact ⟨'\r', ['\n'], rfl, rfl⟩

theorem isLineEnd_of_mem_chars (h : c ∈ b.chars) : isLineEnd c = true := by
  cases b <;> simp only [chars, List.mem_cons, List.not_mem_nil, or_false] at h
  · exact h ▸ rfl
  · exact h ▸ rfl
  · rcases h with rfl | rfl <;> rfl

@[simp] theorem respell_nil (b : LineBreak) : b.respell [] = [] := rfl

@[simp] theorem respell_append (b : LineBreak) (cs ds : List Char) :
    b.respell (cs ++ ds) = b.respell cs ++ b.respell ds :=
  List.flatMap_append

theorem respell_newline (b : LineBreak) (cs : List Char) :
    b.respell ('\n' :: cs) = b.chars ++ b.respell cs := rfl

theorem respell_cons (hc : c ≠ '\n') (cs : List Char) :
    b.respell (c :: cs) = c :: b.respell cs := by
  rw [respell, List.flatMap_cons, if_neg hc]
  rfl

theorem ne_newline_of_isLineEnd (hc : isLineEnd c = false) : c ≠ '\n' := by
  rintro rfl
  cases hc

theorem respell_eq_self (h : ∀ c ∈ cs, isLineEnd c = false) : b.respell cs = cs := by
  induction cs with
  | nil => rfl
  | cons c cs ih =>
    have hh := List.forall_mem_cons.mp h
    rw [respell_cons (ne_newline_of_isLineEnd hh.1), ih hh.2]

theorem respell_lf (cs : List Char) : lf.respell cs = cs := by
  induction cs with
  | nil => rfl
  | cons c cs ih =>
    by_cases hc : c = '\n'
    · rw [hc, respell_newline, ih]
      rfl
    · rw [respell_cons hc, ih]

theorem text_lf (text : String) : lf.text text = text := by
  rw [LineBreak.text, respell_lf, String.ofList_toList]

theorem length_le_length_respell (b : LineBreak) (cs : List Char) :
    cs.length ≤ (b.respell cs).length := by
  induction cs with
  | nil => exact Nat.le_refl 0
  | cons c cs ih =>
    by_cases hc : c = '\n'
    · have hpos : 1 ≤ b.chars.length := by cases b <;> decide
      rw [hc, respell_newline, List.length_append, List.length_cons]
      omega
    · rw [respell_cons hc, List.length_cons, List.length_cons]
      omega

theorem mem_respell_iff (hc : isLineEnd c = false) : c ∈ b.respell cs ↔ c ∈ cs := by
  constructor
  · intro hmem
    obtain ⟨d, hd, hm⟩ := List.mem_flatMap.mp hmem
    by_cases hnew : d = '\n'
    · rw [if_pos hnew] at hm
      simp [isLineEnd_of_mem_chars hm] at hc
    · rw [if_neg hnew, List.mem_singleton] at hm
      exact hm ▸ hd
  · intro hmem
    refine List.mem_flatMap.mpr ⟨c, hmem, ?_⟩
    rw [if_neg (ne_newline_of_isLineEnd hc)]
    exact List.mem_singleton_self c

section Runs

variable {p : Char → Bool}

theorem endsRun_respell (hp : ∀ c, isLineEnd c = true → p c = p '\n') (h : EndsRun p cs) :
    EndsRun p (b.respell cs) := by
  cases cs with
  | nil => exact h
  | cons c cs =>
    by_cases hc : c = '\n'
    · obtain ⟨d, ds, hds, hd⟩ := b.chars_eq_cons
      subst hc
      rw [respell_newline, hds, List.cons_append, endsRun_cons, hp d hd]
      exact endsRun_cons.mp h
    · rw [respell_cons hc]
      exact endsRun_cons.mpr (endsRun_cons.mp h)

theorem forall_mem_respell (hp : ∀ c, isLineEnd c = true → p c = p '\n')
    (h : ∀ c ∈ cs, p c = true) : ∀ c ∈ b.respell cs, p c = true := by
  intro c hc
  by_cases hline : isLineEnd c = true
  · obtain ⟨d, hd, hm⟩ := List.mem_flatMap.mp hc
    by_cases hnew : d = '\n'
    · rw [hp c hline, ← hnew]
      exact h d hd
    · rw [if_neg hnew, List.mem_singleton] at hm
      exact hm ▸ h d hd
  · exact h c ((mem_respell_iff (by simpa using hline)).mp hc)

/-- A run ends at the same place if it either goes on over every line end or over none. -/
theorem takeWhile_respell (hp : ∀ c, isLineEnd c = true → p c = p '\n') (cs : List Char) :
    (b.respell cs).takeWhile p = b.respell (cs.takeWhile p) := by
  have hends := endsRun_respell (b := b) hp (endsRun_dropWhile p cs)
  have hrun := forall_mem_respell (b := b) hp fun c hc => List.mem_takeWhile_imp (l := cs) hc
  have hsplit := takeWhile_append_of_endsRun hrun hends
  rwa [← respell_append, List.takeWhile_append_dropWhile] at hsplit

theorem dropWhile_respell (hp : ∀ c, isLineEnd c = true → p c = p '\n') (cs : List Char) :
    (b.respell cs).dropWhile p = b.respell (cs.dropWhile p) := by
  have hends := endsRun_respell (b := b) hp (endsRun_dropWhile p cs)
  have hrun := forall_mem_respell (b := b) hp fun c hc => List.mem_takeWhile_imp (l := cs) hc
  have hsplit := dropWhile_append_of_endsRun hrun hends
  rwa [← respell_append, List.takeWhile_append_dropWhile] at hsplit

end Runs

theorem same_on_lineEnds {p : Char → Bool} (hcr : p '\r' = p '\n') :
    ∀ c, isLineEnd c = true → p c = p '\n' := by
  intro c hc
  simp only [isLineEnd, Bool.or_eq_true, beq_iff_eq] at hc
  rcases hc with rfl | rfl
  · rfl
  · exact hcr

theorem ignored_chars_append {rest : List Char} (h : Ignored cs rest) :
    Ignored (b.chars ++ cs) rest := by
  cases b with
  | lf => exact .space rfl h
  | cr => exact .space rfl h
  | crlf => exact .space rfl (.space rfl h)

theorem ignored_respell {rest : List Char} (h : Ignored cs rest) :
    Ignored (b.respell cs) (b.respell rest) := by
  induction h with
  | done => exact .done _
  | @space c cs rest hc _ ih =>
    by_cases hnew : c = '\n'
    · rw [hnew, respell_newline]
      exact ignored_chars_append ih
    · rw [respell_cons hnew]
      exact .space hc ih
  | comment htext hafter _ ih =>
    rw [respell_cons (by decide), respell_append, respell_eq_self htext]
    exact .comment htext (endsRun_respell (same_on_lineEnds rfl) hafter) ih

theorem significant_respell (b : LineBreak) (cs : List Char) :
    significant (b.respell cs) = b.respell (significant cs) := by
  have hh := significant_eq_of_ignored (ignored_respell (b := b) (ignored_significant cs))
  cases hs : significant cs with
  | nil => rw [hh, hs, respell_nil]; rfl
  | cons c ds =>
    have hc := isSignificant_of_significant hs
    have hnew : c ≠ '\n' := by
      rintro rfl
      cases hc
    rw [hh, hs, respell_cons hnew, significant_cons hc]

theorem leadingName?_respell (b : LineBreak) (cs : List Char) :
    leadingName? (b.respell cs) = leadingName? cs := by
  cases cs with
  | nil => rfl
  | cons c cs =>
    by_cases hc : c = '\n'
    · subst hc
      cases b <;> rfl
    · have hrun := takeWhile_respell (b := b) (p := isNameContinue) (same_on_lineEnds rfl) (c :: cs)
      have hline : ∀ d ∈ (c :: cs).takeWhile isNameContinue, isLineEnd d = false := by
        intro d hd
        have hname := List.mem_takeWhile_imp hd
        by_contra hend
        have hsame := same_on_lineEnds (p := isNameContinue) rfl d (by simpa using hend)
        rw [hsame] at hname
        cases hname
      rw [respell_eq_self hline, respell_cons hc] at hrun
      rw [respell_cons hc, leadingName?, leadingName?, hrun]

section Trim

open Text

theorem isBlank_of_mem_chars (h : c ∈ b.chars) : isBlank c = true := by
  have hline := isLineEnd_of_mem_chars h
  simp only [isLineEnd, Bool.or_eq_true, beq_iff_eq] at hline
  rcases hline with rfl | rfl <;> rfl

theorem trimEnd_concat (cs : List Char) (c : Char) :
    trimEnd (cs ++ [c]) = if isBlank c then trimEnd cs else cs ++ [c] := by
  simp only [trimEnd, List.reverse_append, List.reverse_cons, List.reverse_nil, List.nil_append,
    List.singleton_append, List.dropWhile_cons]
  split <;> simp

theorem trimEnd_respell (b : LineBreak) (cs : List Char) :
    trimEnd (b.respell cs) = b.respell (trimEnd cs) := by
  induction cs using List.reverseRecOn with
  | nil => rfl
  | append_singleton cs c ih =>
    by_cases hc : c = '\n'
    · have hchars : b.respell [c] = b.chars := by rw [hc, respell_newline, respell_nil, List.append_nil]
      rw [respell_append, hchars, trimEnd_append (fun _ => isBlank_of_mem_chars), ih, trimEnd_concat,
        hc, if_pos (show isBlank '\n' = true from rfl)]
    · rw [respell_append, respell_cons hc, respell_nil, trimEnd_concat, trimEnd_concat]
      split
      · exact ih
      · rw [respell_append, respell_cons hc, respell_nil]

theorem trim_respell (b : LineBreak) (cs : List Char) : trim (b.respell cs) = b.respell (trim cs) := by
  rw [trim, trimStart, dropWhile_respell (same_on_lineEnds rfl), trimEnd_respell, trim, trimStart]

end Trim

theorem lastLine_respell (b : LineBreak) (cs : List Char) :
    lastLine (b.respell cs) = lastLine cs := by
  induction cs using List.reverseRecOn with
  | nil => rfl
  | append_singleton cs c ih =>
    by_cases hc : c = '\n'
    · have hline : lastLine (cs ++ [c]) = [] := by rw [lastLine_concat, hc]; rfl
      rw [hline, hc, respell_append, respell_newline, respell_nil, List.append_nil]
      cases b with
      | lf => exact lastLine_concat _ _
      | cr => exact lastLine_concat _ _
      | crlf =>
        change lastLine (crlf.respell cs ++ ([_] ++ [_])) = []
        rw [← List.append_assoc, lastLine_concat]
        rfl
    · rw [respell_append, respell_cons hc, respell_nil, lastLine_concat, lastLine_concat, ih]

theorem lineBreaks_respell (b : LineBreak) (h : '\r' ∉ cs) :
    lineBreaks (b.respell cs) = lineBreaks cs := by
  induction cs using List.reverseRecOn with
  | nil => rfl
  | append_singleton cs c ih =>
    obtain ⟨hcs, hc⟩ := not_or.mp (List.mem_append.not.mp h)
    have hreturn : cs.getLast? ≠ some '\r' := fun hlast => hcs (List.mem_of_getLast? hlast)
    have hih := ih hcs
    by_cases hnew : c = '\n'
    · subst hnew
      rw [respell_append, respell_newline, respell_nil, List.append_nil, lineBreaks_concat, ← hih]
      cases b with
      | lf => rw [chars, lineBreaks_concat, respell_lf]
      | cr => rw [chars, lineBreaks_concat]; simp [isLineEnd, hreturn]
      | crlf =>
        have hsplit : crlf.respell cs ++ crlf.chars = crlf.respell cs ++ ['\r'] ++ ['\n'] := by
          simp [chars]
        rw [hsplit, lineBreaks_concat, lineBreaks_concat]
        simp [isLineEnd, hreturn]
    · have hend : isLineEnd c = false := by
        have hne : c ≠ '\r' := by simpa [eq_comm] using hc
        simp [isLineEnd, hnew, hne]
      rw [respell_append, respell_cons hnew, respell_nil, lineBreaks_concat, lineBreaks_concat, hih]
      simp [hend]

end LineBreak

/-- Places with the same line and the same columns, which may differ in their offsets. -/
structure Position.Alike (p q : Position) : Prop where
  line : p.line = q.line
  column : p.column = q.column
  column16 : p.column16 = q.column16

theorem Position.ofPrefix_alike (b : LineBreak) {cs : List Char} (h : '\r' ∉ cs) :
    (ofPrefix cs).Alike (ofPrefix (b.respell cs)) :=
  ⟨(b.lineBreaks_respell h).symm, by rw [ofPrefix, ofPrefix, b.lastLine_respell],
    by rw [ofPrefix, ofPrefix, b.lastLine_respell]⟩

end QueryDoc
