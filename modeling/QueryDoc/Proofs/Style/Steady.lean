import QueryDoc.Proofs.Document.RoundTrip
import QueryDoc.Proofs.Style.Tokens

/-! A text in two styles is steady when both have the same tokens and go on with whatever follows. Steady
texts are put together from steady texts: one may follow another when no name or number runs from the
first into the second, and blanks may stand between them. -/

namespace QueryDoc

/-- A text that is written in two styles has the same tokens in both, and whatever follows has its own
tokens, as long as it goes on with no name or number. -/
def Steady (text : Style → List Char) : Prop :=
  ∃ ts, ∀ style rest, EndsRun isTokenContinue rest →
    tokens (text style ++ rest) = ts ++ tokens rest

/-- Any name or number before the text ends where the text begins. -/
def Detached (text : Style → List Char) : Prop :=
  ∀ style rest, EndsRun isTokenContinue rest → EndsRun isTokenContinue (text style ++ rest)

section

variable {text more : Style → List Char} {c : Char}

theorem Steady.tokens_eq (h : Steady text) (style other : Style) :
    tokens (text style) = tokens (text other) := by
  obtain ⟨ts, hts⟩ := h
  have hh := hts style [] (.nil _)
  rw [List.append_nil] at hh
  rw [hh, ← hts other [] (.nil _), List.append_nil]

theorem steady_of_balanced {cs : List Char} (h : Balanced cs) : Steady fun _ => cs := by
  have hplace : BodyPlace.after .code cs = .code := h.after_eq
  have hkeeps : KeepsTokens cs := keepsTokens_of_after (by simp [hplace])
  obtain ⟨ts, hts⟩ := hkeeps
  exact ⟨ts, fun _ rest hrest => hts rest hrest (by simp [hplace])⟩

theorem Steady.nil : Steady fun _ => [] :=
  steady_of_balanced .nil

theorem Steady.append (h : Steady text) (hmore : Steady more) (hdetached : Detached more) :
    Steady fun style => text style ++ more style := by
  obtain ⟨ts, hts⟩ := h
  obtain ⟨us, hus⟩ := hmore
  refine ⟨ts ++ us, fun style rest hrest => ?_⟩
  rw [List.append_assoc, hts style _ (hdetached style rest hrest), hus style rest hrest,
    List.append_assoc]

theorem Steady.mark (hc : isMark c = true) (h : Steady text) : Steady fun style => c :: text style := by
  obtain ⟨ts, hts⟩ := h
  refine ⟨[c] :: ts, fun style rest hrest => ?_⟩
  rw [List.cons_append, tokens_mark hc, hts style rest hrest, List.cons_append]

theorem Steady.blank {blanks : Style → List Char}
    (hblanks : ∀ style rest, Ignored (blanks style ++ rest) rest) (h : Steady text) :
    Steady fun style => blanks style ++ text style := by
  obtain ⟨ts, hts⟩ := h
  refine ⟨ts, fun style rest hrest => ?_⟩
  rw [List.append_assoc, tokens_of_ignored (hblanks style _), hts style rest hrest]

theorem Steady.space (h : Steady text) : Steady fun style => ' ' :: text style := by
  have hspace : ∀ rest, Ignored ([' '] ++ rest) rest := ignored_space (by decide)
  exact Steady.blank (fun _ => hspace) h

theorem Detached.nil : Detached fun _ => [] :=
  fun _ _ hrest => hrest

theorem Detached.cons (hc : isTokenContinue c = false) : Detached fun style => c :: text style :=
  fun _ _ _ => endsRun_cons.mpr hc

theorem Detached.append (h : Detached text) (hmore : Detached more) :
    Detached fun style => text style ++ more style := by
  intro style rest hrest
  rw [List.append_assoc]
  exact h style _ (hmore style rest hrest)

end

section

variable {α : Type} {write : Style → α → List Char} {as : List α}

theorem detached_flatMap (h : ∀ a ∈ as, Detached (write · a)) :
    Detached fun style => as.flatMap (write style) := by
  induction as with
  | nil => exact .nil
  | cons a as ih =>
    obtain ⟨ha, has⟩ := List.forall_mem_cons.mp h
    exact ha.append (ih has)

theorem steady_flatMap (h : ∀ a ∈ as, Steady (write · a)) (hdetached : ∀ a ∈ as, Detached (write · a)) :
    Steady fun style => as.flatMap (write style) := by
  induction as with
  | nil => exact .nil
  | cons a as ih =>
    obtain ⟨ha, has⟩ := List.forall_mem_cons.mp h
    have hrest := (List.forall_mem_cons.mp hdetached).2
    exact ha.append (ih has hrest) (detached_flatMap hrest)

/-- Separators are ignored input with which a token ends. -/
theorem steady_separated {separator : Style → List Char}
    (hignored : ∀ style rest, Ignored (separator style ++ rest) rest)
    (hends : ∀ style rest, EndsRun isTokenContinue (separator style ++ rest))
    (h : ∀ a ∈ as, Steady (write · a)) :
    Steady fun style => separated (separator style) (as.map (write style)) := by
  cases as with
  | nil => exact .nil
  | cons a as =>
    obtain ⟨ha, has⟩ := List.forall_mem_cons.mp h
    have hdetached : ∀ b ∈ as, Detached fun style => separator style ++ write style b := by
      intro b _ style rest _
      rw [List.append_assoc]
      exact hends style _
    have htail : Steady fun style => as.flatMap fun b => separator style ++ write style b :=
      steady_flatMap (fun b hb => .blank hignored (has b hb)) hdetached
    simpa only [List.map_cons, separated_cons, List.flatMap_map] using
      ha.append htail (detached_flatMap hdetached)

theorem steady_items (h : ∀ a ∈ as, Steady (write · a)) :
    Steady fun style => separated style.itemSeparator (as.map (write style)) :=
  steady_separated Style.ignored_itemSeparator Style.endsRun_itemSeparator h

end

theorem Style.detached_gap {text : Style → List Char} (h : Detached text) :
    Detached fun style => style.gap ++ text style := by
  intro style rest hrest
  rw [List.append_assoc]
  exact style.endsRun_gap (h style rest hrest)

theorem Steady.name {name : String} (h : isName name.toList = true) : Steady fun _ => name.toList :=
  steady_of_balanced (balanced_name h)

/-- A key, a colon and what stands for it. -/
theorem Steady.keyed {key : String} (h : isName key.toList = true) {text : Style → List Char}
    (htext : Steady text) : Steady fun style => key.toList ++ style.keySeparator ++ text style := by
  have hvalue : Steady fun style => ':' :: (style.gap ++ text style) :=
    .mark (by decide) (.blank Style.ignored_gap htext)
  simpa only [Style.keySeparator_eq, List.append_assoc, List.cons_append] using
    (Steady.name h).append hvalue (.cons (by decide))

end QueryDoc
