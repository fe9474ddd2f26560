import QueryDoc.Proofs.Grammar.Basic
import QueryDoc.Style

/-! Phrases that are written one after the other. The separators of both styles are ignored input
and end the names and numbers before them. -/

namespace QueryDoc

/-- The characters with which a name or a number may go on. -/
def isTokenContinue (c : Char) : Bool :=
  isNameContinue c || isNumberContinue c

theorem EndsRun.isNameContinue {rest : List Char} (h : EndsRun isTokenContinue rest) :
    EndsRun isNameContinue rest := by
  intro c hc
  have hh := h c hc
  simp only [isTokenContinue, Bool.or_eq_false_iff] at hh
  exact hh.1

theorem EndsRun.isNumberContinue {rest : List Char} (h : EndsRun isTokenContinue rest) :
    EndsRun isNumberContinue rest := by
  intro c hc
  have hh := h c hc
  simp only [isTokenContinue, Bool.or_eq_false_iff] at hh
  exact hh.2

/-- Nothing but a line end may follow directly, so that all tokens and comments end there. -/
theorem EndsRun.of_lineEnd {more : List Char} (h : EndsRun (!isLineEnd ·) more) :
    EndsRun isTokenContinue more := by
  intro c hc
  have hend : isLineEnd c = true := by simpa using h c hc
  simp only [isLineEnd, Bool.or_eq_true, beq_iff_eq] at hend
  rcases hend with rfl | rfl <;> decide

/-- What may stand after a variable definition: something that ends its last token, and no directive. -/
def EndsVariable (rest : List Char) : Prop :=
  EndsRun isTokenContinue rest ∧ (significant rest).head? ≠ some '@'

theorem separated_cons (separator text : List Char) (texts : List (List Char)) :
    separated separator (text :: texts) = text ++ texts.flatMap (separator ++ ·) := by
  induction texts generalizing text with
  | nil => simp [separated]
  | cons next texts ih =>
    have hh : separated separator (text :: next :: texts) =
        text ++ separator ++ separated separator (next :: texts) := by
      simp [separated, List.intercalate]
    rw [hh, ih]
    simp

/-- Phrases that are written with a separator between them are spelled in a row, if the separator is
ignored input and whatever comes next lets a phrase end. -/
theorem SpellsEach.of_separated {α : Type} {item : List Char → α → List Char → Prop}
    {write : α → List Char} {separator : List Char} {ends : List Char → Prop}
    (hprepend : ∀ ⦃i m a r⦄, Ignored i m → item m a r → item i a r)
    (hseparator : ∀ rest, Ignored (separator ++ rest) rest) {as : List α}
    (hends : ∀ a ∈ as, ∀ rest, ends (separator ++ (write a ++ rest)))
    (hitem : ∀ a ∈ as, ∀ rest, ends rest → item (write a ++ rest) a rest) {rest : List Char}
    (hrest : ends rest) : SpellsEach item (separated separator (as.map write) ++ rest) as rest := by
  have htail : ∀ bs : List α, (∀ b ∈ bs, b ∈ as) →
      SpellsEach item ((bs.map write).flatMap (separator ++ ·) ++ rest) bs rest ∧
        ends ((bs.map write).flatMap (separator ++ ·) ++ rest) := by
    intro bs
    induction bs with
    | nil => exact fun _ => ⟨.nil rest, hrest⟩
    | cons b bs ih =>
      intro hmem
      obtain ⟨hb, hbs⟩ := List.forall_mem_cons.mp hmem
      obtain ⟨heach, hnext⟩ := ih hbs
      simp only [List.map_cons, List.flatMap_cons, List.append_assoc]
      exact ⟨.cons (hprepend (hseparator _) (hitem b hb _ hnext)) heach, hends b hb _⟩
  cases as with
  | nil => exact .nil rest
  | cons a as =>
    obtain ⟨heach, hnext⟩ := htail as fun b hb => List.mem_cons_of_mem a hb
    rw [List.map_cons, separated_cons, List.append_assoc]
    exact .cons (hitem a List.mem_cons_self _ hnext) heach

theorem ignored_space {c : Char} (hc : (isSpace c || c == ',') = true) (rest : List Char) :
    Ignored (c :: rest) rest :=
  .space hc (.done rest)

theorem Style.ignored_gap (style : Style) (rest : List Char) : Ignored (style.gap ++ rest) rest := by
  cases style with
  | pretty => exact ignored_space (by decide) rest
  | minified => exact .done rest

theorem Style.ignored_itemSeparator (style : Style) (rest : List Char) :
    Ignored (style.itemSeparator ++ rest) rest := by
  cases style with
  | pretty => exact .space (by decide) (ignored_space (by decide) rest)
  | minified => exact ignored_space (by decide) rest

theorem Style.endsRun_itemSeparator (style : Style) (rest : List Char) :
    EndsRun isTokenContinue (style.itemSeparator ++ rest) := by
  cases style <;> exact endsRun_cons.mpr (by decide)

theorem Style.keySeparator_eq (style : Style) : style.keySeparator = ':' :: style.gap := by
  cases style <;> rfl

end QueryDoc
