import QueryDoc.Text.Layout

/-! Lines of a text. A line is what stands before a line feed, without a carriage return at its end,
and the last line of a text is what stands after its last line feed. -/

namespace QueryDoc.Text

theorem lines_newline (cs : List Char) : lines ('\n' :: cs) = [] :: lines cs := by
  rw [lines]

theorem lines_return_newline (cs : List Char) : lines ('\r' :: '\n' :: cs) = [] :: lines cs := by
  rw [lines]

theorem lines_cons {c : Char} {cs : List Char} (hc : c ≠ '\n')
    (hr : c = '\r' → cs.head? ≠ some '\n') :
    lines (c :: cs) = match lines cs with
      | [] => [[c]]
      | line :: more => (c :: line) :: more := by
  rw [lines.eq_def]
  split
  · next heq => cases heq
  · next heq => exact absurd (List.cons.inj heq).1 hc
  · next heq =>
    obtain ⟨rfl, rfl⟩ := List.cons.inj heq
    exact absurd rfl (hr rfl)
  · next heq =>
    obtain ⟨rfl, rfl⟩ := List.cons.inj heq
    rfl

theorem lines_of_not_mem {cs : List Char} (h : '\n' ∉ cs) (hne : cs ≠ []) : lines cs = [cs] := by
  induction cs with
  | nil => exact absurd rfl hne
  | cons c cs ih =>
    simp only [List.mem_cons, not_or] at h
    rw [lines_cons (Ne.symm h.1) fun _ hh => h.2 (List.mem_of_mem_head? hh)]
    by_cases hcs : cs = []
    · rw [hcs]
      rfl
    · rw [ih h.2 hcs]

def dropReturn (line : List Char) : List Char :=
  if line.getLast? = some '\r' then line.dropLast else line

theorem dropReturn_append_return (line : List Char) : dropReturn (line ++ ['\r']) = line := by
  simp [dropReturn]

theorem dropReturn_eq_self {line : List Char} (h : line.getLast? ≠ some '\r') :
    dropReturn line = line := by
  rw [dropReturn, if_neg h]

theorem dropReturn_cons {c : Char} {line : List Char} (h : c = '\r' → line ≠ []) :
    dropReturn (c :: line) = c :: dropReturn line := by
  cases line with
  | nil =>
    have hc : c ≠ '\r' := fun hc => h hc rfl
    exact dropReturn_eq_self (by simpa using hc)
  | cons d line =>
    rw [dropReturn, dropReturn, List.getLast?_cons_cons]
    split <;> rfl

theorem lines_append_newline {line : List Char} (h : '\n' ∉ line) (rest : List Char) :
    lines (line ++ '\n' :: rest) = dropReturn line :: lines rest := by
  induction line with
  | nil => exact lines_newline rest
  | cons c line ih =>
    simp only [List.mem_cons, not_or] at h
    by_cases hreturn : c = '\r' ∧ line = []
    · obtain ⟨rfl, rfl⟩ := hreturn
      exact lines_return_newline rest
    · have hline : c = '\r' → line ≠ [] := fun hc hnil => hreturn ⟨hc, hnil⟩
      have hhead : c = '\r' → (line ++ '\n' :: rest).head? ≠ some '\n' := by
        intro hc hhead
        obtain ⟨d, line, rfl⟩ := List.exists_cons_of_ne_nil (hline hc)
        exact h.2 (List.mem_of_mem_head? hhead)
      rw [List.cons_append, lines_cons (Ne.symm h.1) hhead, ih h.2, dropReturn_cons hline]

theorem dropReturn_sublist (line : List Char) : (dropReturn line).Sublist line := by
  unfold dropReturn
  split
  · exact List.dropLast_sublist line
  · exact List.Sublist.refl line

theorem newline_not_mem_of_mem_lines {text line : List Char} (h : line ∈ lines text) :
    '\n' ∉ line := by
  induction hn : text.length using Nat.strongRecOn generalizing text with
  | ind n ih =>
    by_cases hmem : '\n' ∈ text
    · obtain ⟨first, rest, rfl, hfirst⟩ := List.eq_append_cons_of_mem hmem
      rw [lines_append_newline hfirst, List.mem_cons] at h
      rcases h with rfl | h
      · exact fun hm => hfirst ((dropReturn_sublist first).mem hm)
      · refine ih _ ?_ h rfl
        simp only [← hn, List.length_append, List.length_cons]
        omega
    · by_cases hnil : text = []
      · rw [hnil] at h
        cases h
      · rw [lines_of_not_mem hmem hnil, List.mem_singleton] at h
        rwa [h]

variable {c d : Char} {cs : List Char}

/-- Whatever is put before a text, its last line keeps its characters. -/
theorem mem_getLast_lines_cons (h : ∃ line, (lines cs).getLast? = some line ∧ c ∈ line) :
    ∃ line, (lines (d :: cs)).getLast? = some line ∧ c ∈ line := by
  obtain ⟨line, hline, hc⟩ := h
  have hcons : ∃ first more, lines cs = first :: more := by
    cases hlines : lines cs with
    | nil => simp [hlines] at hline
    | cons first more => exact ⟨first, more, rfl⟩
  obtain ⟨first, more, hlines⟩ := hcons
  by_cases hd : d = '\n'
  · refine ⟨line, ?_, hc⟩
    rw [hd, lines_newline, hlines, List.getLast?_cons_cons, ← hlines, hline]
  by_cases hr : d = '\r' ∧ cs.head? = some '\n'
  · -- The line break is one of two characters, and the line it ends is empty as before.
    obtain ⟨rfl, hhead⟩ := hr
    obtain ⟨rest, rfl⟩ := List.head?_eq_some_iff.mp hhead
    refine ⟨line, ?_, hc⟩
    rw [lines_return_newline, ← lines_newline, hline]
  · rw [lines_cons hd fun h₁ h₂ => hr ⟨h₁, h₂⟩, hlines]
    rw [hlines] at hline
    cases more with
    | nil =>
      rw [List.getLast?_singleton, Option.some.injEq] at hline
      exact ⟨d :: first, rfl, List.mem_cons_of_mem _ (hline ▸ hc)⟩
    | cons second more =>
      refine ⟨line, ?_, hc⟩
      rw [List.getLast?_cons_cons] at hline ⊢
      exact hline

theorem mem_getLast_lines_append (hc : c ≠ '\n') (front : List Char) {text : List Char}
    (h : '\n' ∉ text) : ∃ line, (lines (front ++ c :: text)).getLast? = some line ∧ c ∈ line := by
  induction front with
  | nil =>
    have hnot : '\n' ∉ c :: text := by simp [hc.symm, h]
    rw [List.nil_append, lines_of_not_mem hnot (List.cons_ne_nil _ _)]
    exact ⟨_, rfl, List.mem_cons_self⟩
  | cons d front ih => exact mem_getLast_lines_cons ih

theorem lines_append (front rest : List Char) :
    lines (front ++ '\n' :: rest) = lines (front ++ ['\n']) ++ lines rest := by
  induction hn : front.length using Nat.strongRecOn generalizing front with
  | ind n ih =>
    by_cases hmem : '\n' ∈ front
    · obtain ⟨line, front, rfl, hline⟩ := List.eq_append_cons_of_mem hmem
      have hlt : front.length < n := by
        simp only [← hn, List.length_append, List.length_cons]
        omega
      rw [List.append_assoc, List.append_assoc, List.cons_append, List.cons_append,
        lines_append_newline hline, lines_append_newline hline, ih _ hlt front rfl, List.cons_append]
    · rw [lines_append_newline hmem, lines_append_newline hmem]
      rfl

/-- A line with a line break behind it is the last one, whatever lines stand before it. -/
theorem getLast?_lines_append {line : List Char} (h : '\n' ∉ line) (hreturn : line.getLast? ≠ some '\r')
    (front : List Char) :
    (lines (front ++ '\n' :: (line ++ ['\n']))).getLast? = some line := by
  rw [lines_append, lines_append_newline h, dropReturn_eq_self hreturn, List.getLast?_append]
  rfl

end QueryDoc.Text
