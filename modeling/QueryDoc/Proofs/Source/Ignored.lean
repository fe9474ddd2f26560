import Mathlib.Data.List.TakeWhile
import QueryDoc.Source.Scanner

/-! Ignored input between tokens, as a relation between a text and what is left of it. A scanner
passes over as much of it as there is, which leaves the significant part of the text. -/

namespace QueryDoc

/-- Whether a text is empty or goes on with a character outside a class. A run of the class that
stands before such a text ends there. -/
def EndsRun (p : Char → Bool) (rest : List Char) : Prop :=
  ∀ c ∈ rest.head?, p c = false

/-- Ignored input stands at the beginning of a text, before `rest`: white space, commas, and
comments up to the end of their line. -/
inductive Ignored : List Char → List Char → Prop
  | done (rest : List Char) : Ignored rest rest
  | space {c : Char} {cs rest : List Char} :
      (isSpace c || c == ',') = true → Ignored cs rest → Ignored (c :: cs) rest
  | comment {text after rest : List Char} :
      (∀ c ∈ text, isLineEnd c = false) → EndsRun (!isLineEnd ·) after → Ignored after rest →
      Ignored ('#' :: (text ++ after)) rest

def significant (cs : List Char) : List Char :=
  cs.drop (ignoredLength false cs)

def isSignificant (c : Char) : Bool :=
  !(isSpace c || c == ',' || c == '#')

theorem isLineEnd_of_isSignificant {c : Char} (h : isSignificant c = true) : isLineEnd c = false := by
  refine Bool.eq_false_iff.mpr fun hend => ?_
  simp only [isLineEnd, Bool.or_eq_true, beq_iff_eq] at hend
  rcases hend with rfl | rfl <;> cases h

theorem isSpace_of_isLineEnd {c : Char} (h : isLineEnd c = true) :
    (isSpace c || c == ',') = true := by
  simp only [isLineEnd, Bool.or_eq_true, beq_iff_eq] at h
  rcases h with rfl | rfl <;> decide

theorem EndsRun.nil (p : Char → Bool) : EndsRun p [] := by
  simp [EndsRun]

theorem endsRun_cons {p : Char → Bool} {c : Char} {cs : List Char} :
    EndsRun p (c :: cs) ↔ p c = false := by
  simp [EndsRun]

theorem takeWhile_append_of_endsRun {p : Char → Bool} {cs rest : List Char}
    (hcs : ∀ c ∈ cs, p c = true) (hrest : EndsRun p rest) :
    (cs ++ rest).takeWhile p = cs := by
  rw [List.takeWhile_append_of_pos hcs]
  cases rest with
  | nil => simp
  | cons c rest => simp [endsRun_cons.mp hrest]

theorem dropWhile_append_of_endsRun {p : Char → Bool} {cs rest : List Char}
    (hcs : ∀ c ∈ cs, p c = true) (hrest : EndsRun p rest) :
    (cs ++ rest).dropWhile p = rest := by
  rw [List.dropWhile_append_of_pos hcs]
  cases rest with
  | nil => rfl
  | cons c rest => simp [endsRun_cons.mp hrest]

theorem endsRun_dropWhile (p : Char → Bool) (cs : List Char) : EndsRun p (cs.dropWhile p) := by
  intro c hc
  have h := List.head?_dropWhile_not p cs
  rw [Option.mem_def.mp hc] at h
  simpa using h

theorem significant_space {c : Char} (h : (isSpace c || c == ',') = true) (cs : List Char) :
    significant (c :: cs) = significant cs := by
  simp only [significant, ignoredLength, h, Bool.false_eq_true, if_false, if_true,
    List.drop_succ_cons]

/-- A comment leaves what follows its line, because its line end is white space. -/
theorem drop_ignoredLength_comment (cs : List Char) :
    cs.drop (ignoredLength true cs) = significant (cs.dropWhile (!isLineEnd ·)) := by
  induction cs with
  | nil => rfl
  | cons c cs ih =>
    cases h : isLineEnd c with
    | false => simpa [ignoredLength, h, List.dropWhile_cons] using ih
    | true =>
      rw [List.dropWhile_cons_of_neg (by simp [h]), significant_space (isSpace_of_isLineEnd h)]
      simp [ignoredLength, h, significant]

theorem significant_comment (cs : List Char) :
    significant ('#' :: cs) = significant (cs.dropWhile (!isLineEnd ·)) := by
  rw [← drop_ignoredLength_comment]
  rfl

@[simp] theorem significant_cons {c : Char} (h : isSignificant c = true) (cs : List Char) :
    significant (c :: cs) = c :: cs := by
  simp only [isSignificant, Bool.not_eq_true', Bool.or_eq_false_iff] at h
  simp [significant, ignoredLength, h.1, h.2]

theorem significant_eq_of_ignored {cs rest : List Char} (h : Ignored cs rest) :
    significant cs = significant rest := by
  induction h with
  | done => rfl
  | space hc _ ih => rw [significant_space hc, ih]
  | comment htext hafter _ ih =>
    rw [significant_comment, dropWhile_append_of_endsRun (by simpa using htext) hafter, ih]

theorem ignored_significant (cs : List Char) : Ignored cs (significant cs) := by
  induction hn : cs.length using Nat.strongRecOn generalizing cs with
  | ind n ih =>
    cases cs with
    | nil => exact .done []
    | cons c cs =>
      by_cases hspace : (isSpace c || c == ',') = true
      · rw [significant_space hspace]
        exact .space hspace (ih cs.length (by simp [← hn]) cs rfl)
      · by_cases hcomment : c = '#'
        · subst hcomment
          have hlen := (List.dropWhile_suffix (!isLineEnd ·) (l := cs)).length_le
          have hrec := ih _ (by simp only [← hn, List.length_cons]; omega)
            (cs.dropWhile (!isLineEnd ·)) rfl
          have htext : ∀ c ∈ cs.takeWhile (!isLineEnd ·), isLineEnd c = false := by
            simpa using fun c => List.mem_takeWhile_imp (p := (!isLineEnd ·)) (l := cs) (x := c)
          have hh := Ignored.comment htext (endsRun_dropWhile _ cs) hrec
          rwa [List.takeWhile_append_dropWhile, ← significant_comment] at hh
        · have hsig : isSignificant c = true := by
            simp_all [isSignificant]
          rw [significant_cons hsig]
          exact .done _

theorem Ignored.trans {a b c : List Char} (h : Ignored a b) (h' : Ignored b c) : Ignored a c := by
  induction h with
  | done => exact h'
  | space hc _ ih => exact .space hc (ih h')
  | comment htext hafter _ ih => exact .comment htext hafter (ih h')

theorem Ignored.suffix {cs rest : List Char} (h : Ignored cs rest) : rest <:+ cs := by
  induction h with
  | done => exact List.suffix_rfl
  | space _ _ ih => exact ih.trans (List.suffix_cons _ _)
  | comment _ _ _ ih =>
    exact ih.trans ((List.suffix_append _ _).trans (List.suffix_cons _ _))

@[simp] theorem significant_significant (cs : List Char) :
    significant (significant cs) = significant cs :=
  (significant_eq_of_ignored (ignored_significant cs)).symm

theorem ignored_cons_iff {c : Char} (hc : isSignificant c = true) {cs rest : List Char} :
    Ignored cs (c :: rest) ↔ significant cs = c :: rest := by
  constructor
  · intro h
    rw [significant_eq_of_ignored h, significant_cons hc]
  · intro h
    exact h ▸ ignored_significant cs

theorem ignored_nil_iff {cs : List Char} : Ignored cs [] ↔ significant cs = [] := by
  constructor
  · intro h
    exact significant_eq_of_ignored h
  · intro h
    exact h ▸ ignored_significant cs

theorem isSignificant_of_significant {cs rest : List Char} {c : Char}
    (h : significant cs = c :: rest) : isSignificant c = true := by
  have hs : significant (c :: rest) = c :: rest := h ▸ significant_significant cs
  by_contra hc
  simp only [isSignificant, Bool.not_eq_true', Bool.or_eq_false_iff, Bool.not_eq_false,
    not_and] at hc
  by_cases hspace : (isSpace c || c == ',') = true
  · rw [significant_space hspace] at hs
    have hlen := (ignored_significant rest).suffix.length_le
    simp only [hs, List.length_cons] at hlen
    omega
  · have hh : c = '#' := by simpa using hc (by simpa using hspace)
    subst hh
    rw [significant_comment] at hs
    have hlen := (ignored_significant (rest.dropWhile (!isLineEnd ·))).suffix.length_le
    have hlen' := (List.dropWhile_suffix (!isLineEnd ·) (l := rest)).length_le
    simp only [hs, List.length_cons] at hlen
    omega

namespace Scanner

@[simp] theorem rest_skipIgnored (s : Scanner) : s.skipIgnored.rest = significant s.rest := by
  simp [skipIgnored, significant]

theorem skipIgnored_eq_self {s : Scanner} {c : Char} {cs : List Char} (hs : s.rest = c :: cs)
    (hc : isSignificant c = true) : s.skipIgnored = s := by
  simp only [isSignificant, Bool.not_eq_true', Bool.or_eq_false_iff] at hc
  simp [skipIgnored, hs, ignoredLength, hc.1, hc.2, advanceBy]

theorem skipIgnored_blanks (n : Nat) (p : Position) (file : Option String) :
    skipIgnored { rest := List.replicate n ' ' ++ ['}'], position := p, file } =
      { rest := ['}'], file
        position :=
          { line := p.line, column := p.column + n, column16 := p.column16 + n
            offset := p.offset + n } } := by
  induction n generalizing p with
  | zero => exact skipIgnored_eq_self rfl rfl
  | succ n ih =>
    have hadvance : skipIgnored
        { rest := List.replicate (n + 1) ' ' ++ ['}'], position := p, file } =
          skipIgnored
            { rest := List.replicate n ' ' ++ ['}'], position := p.past ' ', file } := rfl
    rw [hadvance, ih]
    simp only [Position.past, Nat.add_assoc, Nat.add_comm n 1]
    rfl

theorem rest_past_enclosed {s : Scanner} {c d : Char} {inside rest : List Char}
    (h : significant s.rest = c :: (inside ++ d :: rest)) :
    (s.skipIgnored.advanceBy (inside.length + 2)).rest = rest := by
  rw [rest_advanceBy, rest_skipIgnored, h, List.drop_succ_cons, List.append_cons,
    List.drop_left' (by simp)]

theorem ignored_skipIgnored (s : Scanner) : Ignored s.rest s.skipIgnored.rest := by
  simpa using ignored_significant s.rest

end Scanner

end QueryDoc
