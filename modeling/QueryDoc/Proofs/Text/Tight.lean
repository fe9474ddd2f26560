import Mathlib.Data.List.Infix
import QueryDoc.Proofs.Text.Trim

/-! Texts that come in lines and go out in lines: none of their inner lines is blank, and no line ends in
a carriage return. What must not occur in such a text consists of blanks alone, so texts that meet in a
character that is no blank may be put together. -/

namespace QueryDoc.Text

/-- A blank line with the line feeds around it, or a carriage return before a line feed. -/
inductive Loose : List Char → Prop
  | blankLine {blanks : List Char} :
      (∀ c ∈ blanks, isBlank c = true) → Loose ('\n' :: (blanks ++ ['\n']))
  | returnNewline : Loose ['\r', '\n']

def Tight (cs : List Char) : Prop :=
  ∀ ⦃w⦄, Loose w → ¬w <:+: cs

/-- A tight text that begins and ends with characters that are no blanks. -/
structure Solid (cs : List Char) : Prop where
  tight : Tight cs
  head : ∃ c, cs.head? = some c ∧ isBlank c = false
  last : ∃ c, cs.getLast? = some c ∧ isBlank c = false

variable {w cs ds sep : List Char}

theorem Loose.isBlank_of_mem (h : Loose w) : ∀ c ∈ w, isBlank c = true := by
  cases h with
  | blankLine hblanks =>
    refine List.forall_mem_cons.mpr ⟨by decide, List.forall_mem_append.mpr ⟨hblanks, ?_⟩⟩
    exact List.forall_mem_singleton.mpr (by decide)
  | returnNewline =>
    exact List.forall_mem_cons.mpr ⟨by decide, List.forall_mem_singleton.mpr (by decide)⟩

theorem Loose.newline_mem (h : Loose w) : '\n' ∈ w.tail := by
  cases h <;> simp

theorem Tight.mono (h : Tight cs) (hds : ds <:+: cs) : Tight ds := fun _ hw hoccurs =>
  h hw (hoccurs.trans hds)

theorem tight_of_not_mem (h : '\n' ∉ cs) : Tight cs := fun _ hw hoccurs =>
  h (hoccurs.subset (List.mem_of_mem_tail hw.newline_mem))

theorem tight_singleton (c : Char) : Tight [c] := by
  intro w hw hoccurs
  have hlength := hoccurs.length_le
  have hpos := List.length_pos_of_mem hw.newline_mem
  rw [List.length_tail] at hpos
  rw [List.length_singleton] at hlength
  omega

/-- What occurs in two texts put together occurs in one of them, or across the place where they meet. -/
theorem infix_append_cases {α : Type} {w a b : List α} (h : w <:+: a ++ b) :
    w <:+: a ∨ w <:+: b ∨
      ∃ w₁ w₂, w = w₁ ++ w₂ ∧ w₁ ≠ [] ∧ w₂ ≠ [] ∧ w₁ <:+ a ∧ w₂ <+: b := by
  induction a with
  | nil => exact .inr (.inl h)
  | cons c a ih =>
    rw [List.cons_append, List.infix_cons_iff] at h
    rcases h with h | h
    · rcases List.prefix_or_prefix_of_prefix h (List.prefix_append (c :: a) b) with hw | ⟨w₂, rfl⟩
      · exact .inl hw.isInfix
      · have hw₂ : w₂ <+: b := (List.prefix_append_right_inj (c :: a)).mp h
        by_cases hnil : w₂ = []
        · rw [hnil, List.append_nil]
          exact .inl List.infix_rfl
        · exact .inr (.inr ⟨c :: a, w₂, rfl, by simp, hnil, List.suffix_rfl, hw₂⟩)
    · rcases ih h with hw | hw | ⟨w₁, w₂, rfl, h₁, h₂, hsuffix, hprefix⟩
      · exact .inl (hw.trans (List.suffix_cons c a).isInfix)
      · exact .inr (.inl hw)
      · exact .inr (.inr ⟨w₁, w₂, rfl, h₁, h₂, hsuffix.trans (List.suffix_cons c a), hprefix⟩)

/-- Tight texts may be put together where one of them meets the other with no blank. -/
theorem Tight.append (hcs : Tight cs) (hds : Tight ds)
    (hmeet : (∃ c, cs.getLast? = some c ∧ isBlank c = false) ∨
      ∃ c, ds.head? = some c ∧ isBlank c = false) : Tight (cs ++ ds) := by
  intro w hw hoccurs
  rcases infix_append_cases hoccurs with h | h | ⟨w₁, w₂, rfl, h₁, h₂, hsuffix, hprefix⟩
  · exact hcs hw h
  · exact hds hw h
  · have hblank := List.forall_mem_append.mp hw.isBlank_of_mem
    rcases hmeet with ⟨c, hc, hcblank⟩ | ⟨c, hc, hcblank⟩
    · have hmem : c ∈ w₁ := by
        obtain ⟨front, rfl⟩ := hsuffix
        rw [List.getLast?_append_of_ne_nil _ h₁] at hc
        exact List.mem_of_getLast? hc
      rw [hblank.1 c hmem] at hcblank
      cases hcblank
    · have hmem : c ∈ w₂ := by
        obtain ⟨back, rfl⟩ := hprefix
        rw [List.head?_append_of_ne_nil _ h₂] at hc
        exact List.mem_of_mem_head? hc
      rw [hblank.2 c hmem] at hcblank
      cases hcblank

namespace Solid

/-- Whatever stands between two solid texts only has to be tight. -/
theorem glue (hcs : Solid cs) (hsep : Tight sep) (hds : Solid ds) : Solid (cs ++ (sep ++ ds)) := by
  obtain ⟨c, hc, hcblank⟩ := hcs.head
  obtain ⟨d, hd, hdblank⟩ := hds.last
  have htight := hcs.tight.append (hsep.append hds.tight (.inr hds.head)) (.inl hcs.last)
  refine ⟨htight, ⟨c, ?_, hcblank⟩, ⟨d, ?_, hdblank⟩⟩
  · rw [List.head?_append, hc, Option.some_or]
  · rw [List.getLast?_append, List.getLast?_append, hd, Option.some_or, Option.some_or]

theorem append (hcs : Solid cs) (hds : Solid ds) : Solid (cs ++ ds) :=
  hcs.glue (tight_of_not_mem List.not_mem_nil) hds

/-- A text without any blanks is solid. -/
theorem of_not_blank (hne : cs ≠ []) (h : ∀ c ∈ cs, isBlank c = false) : Solid cs := by
  have hnewline : '\n' ∉ cs := fun hm => absurd (h _ hm) (by decide)
  refine ⟨tight_of_not_mem hnewline, ⟨cs.head hne, List.head?_eq_some_head hne, ?_⟩,
    ⟨cs.getLast hne, List.getLast?_eq_some_getLast hne, ?_⟩⟩
  · exact h _ (List.head_mem hne)
  · exact h _ (List.getLast_mem hne)

/-- A text that is trimmed has no blanks at its ends. -/
theorem of_trim (htrim : trim cs = cs) (hne : cs ≠ []) (htight : Tight cs) : Solid cs := by
  refine ⟨htight, ?_, ?_⟩
  · obtain ⟨c, ds, rfl⟩ := List.exists_cons_of_ne_nil hne
    refine ⟨c, rfl, ?_⟩
    by_contra hc
    have hblank : ∀ d ∈ [c], isBlank d = true := by simpa using hc
    have hh := trim_blanks_append hblank ds
    have hlength := length_trim_le ds
    rw [List.singleton_append, htrim] at hh
    simp only [← hh, List.length_cons] at hlength
    omega
  · obtain ⟨ds, c, rfl⟩ := List.eq_nil_or_concat' cs |>.resolve_left hne
    refine ⟨c, List.getLast?_concat, ?_⟩
    by_contra hc
    have hblank : ∀ d ∈ [c], isBlank d = true := by simpa using hc
    have hh := trim_append_blanks hblank ds
    have hlength := length_trim_le ds
    rw [htrim] at hh
    simp only [← hh, List.length_append, List.length_singleton] at hlength
    omega

theorem singleton {c : Char} (h : isBlank c = false) : Solid [c] :=
  of_not_blank (List.cons_ne_nil _ _) (List.forall_mem_singleton.mpr h)

end Solid

section Line

variable {line : List Char}

theorem tight_newline_cons (h : '\n' ∉ line) : Tight ('\n' :: line) := by
  intro w hw hoccurs
  rcases infix_append_cases (a := ['\n']) (b := line) hoccurs with
    hw' | hw' | ⟨w₁, w₂, rfl, h₁, -, hs, hp⟩
  · exact tight_singleton '\n' hw hw'
  · exact tight_of_not_mem h hw hw'
  · -- The first part is the line feed alone, and there is another one after it.
    have hlength := hs.length_le
    obtain ⟨c, w₁, rfl⟩ := List.exists_cons_of_ne_nil h₁
    obtain rfl : w₁ = [] := by simpa using hlength
    exact h (hp.subset hw.newline_mem)

/-- A line that is not blank may be put before a tight text. -/
theorem Tight.cons_line {cs : List Char} (hnewline : '\n' ∉ line)
    (hreturn : line.getLast? ≠ some '\r') (hblank : trim line ≠ []) (h : Tight ('\n' :: cs)) :
    Tight ('\n' :: (line ++ '\n' :: cs)) := by
  intro w hw hoccurs
  rcases infix_append_cases (a := '\n' :: line) hoccurs with hw' | hw' | ⟨w₁, w₂, rfl, h₁, h₂, hs, hp⟩
  · exact tight_newline_cons hnewline hw hw'
  · exact h hw hw'
  · have hblanks := (List.forall_mem_append.mp hw.isBlank_of_mem).1
    rcases List.suffix_cons_iff.mp hs with rfl | hs
    · exact hblank (trim_eq_nil_iff.mpr (List.forall_mem_cons.mp hblanks).2)
    · obtain ⟨c, w₁, rfl⟩ := List.exists_cons_of_ne_nil h₁
      generalize hsplit : c :: w₁ ++ w₂ = w at hw
      cases hw with
      | blankLine _ =>
        obtain ⟨rfl, -⟩ := List.cons.inj hsplit
        exact hnewline (hs.subset List.mem_cons_self)
      | returnNewline =>
        obtain ⟨d, w₂, rfl⟩ := List.exists_cons_of_ne_nil h₂
        obtain ⟨rfl, hrest⟩ := List.cons.inj hsplit
        obtain rfl : w₁ = [] := by
          have hlength := congrArg List.length hrest
          simp at hlength
          exact List.length_eq_zero_iff.mp (by omega)
        obtain ⟨front, rfl⟩ := hs
        exact hreturn List.getLast?_concat

theorem Solid.not_prefix {cs : List Char} (h : Solid cs) (hw : ∀ c ∈ w, isBlank c = true)
    (hne : w ≠ []) : ¬w <+: cs := by
  rintro ⟨back, rfl⟩
  obtain ⟨c, hc, hcblank⟩ := h.head
  rw [List.head?_append_of_ne_nil _ hne] at hc
  rw [hw c (List.mem_of_mem_head? hc)] at hcblank
  cases hcblank

theorem Solid.not_suffix {cs : List Char} (h : Solid cs) (hw : ∀ c ∈ w, isBlank c = true)
    (hne : w ≠ []) : ¬w <:+ cs := by
  rintro ⟨front, rfl⟩
  obtain ⟨c, hc, hcblank⟩ := h.last
  rw [List.getLast?_append_of_ne_nil _ hne] at hc
  rw [hw c (List.mem_of_getLast? hc)] at hcblank
  cases hcblank

/-- No line of a solid text is blank, not even the first or the last one. -/
theorem Solid.trim_ne_nil {before after : List Char} (h : Solid (before ++ (line ++ after)))
    (hbefore : before = [] ∨ ∃ cs, before = cs ++ ['\n'])
    (hafter : after = [] ∨ ∃ cs, after = '\n' :: cs) : trim line ≠ [] := by
  intro hblank
  rw [trim_eq_nil_iff] at hblank
  have hnewline : ∀ c ∈ ['\n'], isBlank c = true := List.forall_mem_singleton.mpr (by decide)
  have hend := List.forall_mem_append.mpr ⟨hblank, hnewline⟩
  rcases hbefore with rfl | ⟨cs, rfl⟩
  · rcases hafter with rfl | ⟨ds, rfl⟩
    · have hne : line ≠ [] := by
        rintro rfl
        obtain ⟨c, hc, -⟩ := h.head
        cases hc
      exact h.not_prefix hblank hne (List.prefix_append _ _)
    · exact h.not_prefix hend (by simp) ⟨ds, by simp⟩
  · have hstart : ∀ c ∈ '\n' :: line, isBlank c = true :=
      List.forall_mem_cons.mpr ⟨by decide, hblank⟩
    rcases hafter with rfl | ⟨ds, rfl⟩
    · exact h.not_suffix hstart (List.cons_ne_nil _ _) ⟨cs, by simp⟩
    · exact h.tight (.blankLine hblank) ⟨cs, ds, by simp⟩

theorem Solid.getLast?_ne_return {before after : List Char} (h : Solid (before ++ (line ++ after)))
    (hafter : after = [] ∨ ∃ cs, after = '\n' :: cs) : line.getLast? ≠ some '\r' := by
  intro hreturn
  obtain ⟨front, rfl⟩ := List.getLast?_eq_some_iff.mp hreturn
  rcases hafter with rfl | ⟨ds, rfl⟩
  · have hblank : ∀ c ∈ ['\r'], isBlank c = true := List.forall_mem_singleton.mpr (by decide)
    exact h.not_suffix hblank (List.cons_ne_nil _ _) ⟨before ++ front, by simp⟩
  · exact h.tight .returnNewline ⟨before ++ front, ds, by simp⟩

end Line

end QueryDoc.Text
