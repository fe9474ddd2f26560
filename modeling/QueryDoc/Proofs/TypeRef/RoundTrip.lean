import QueryDoc.Proofs.Document.RoundTrip

/-! A type is read from the texts in which the grammar spells it. The text it is written as is one of
them exactly if its names are names and no mark that it is not null stands after another. -/

namespace QueryDoc.TypeRef

open ReadM

variable {source : List Char} {options : ReadOptions} {t : TypeRef}

theorem parse_ok_iff :
    parse source options = .ok t ↔
      ∃ rest, SpellsType source t rest ∧ Ignored rest [] ∧ t.nesting ≤ options.depth := by
  have hsound : Sound (read options.depth) _ := readWithin_sound _ _
  rw [parse, Token.onText_finish_ok_iff hsound
    fun rest h hend => readWithin_reaches h.1 h.2 (by simp [hend]) (by rw [Scanner.rest_start])]
  exact exists_congr fun rest => and_right_comm.trans and_assoc

theorem parse_chars_ok_iff :
    parse t.chars = .ok t ↔ t.isWellFormed = true ∧ t.nesting ≤ 64 := by
  rw [parse_ok_iff]
  constructor
  · rintro ⟨rest, hspells, -, hlevels⟩
    exact ⟨hspells.isWellFormed, hlevels⟩
  · rintro ⟨hwell, hlevels⟩
    have hspells := spells_chars hwell (EndsRun.nil _)
    rw [List.append_nil] at hspells
    exact ⟨[], hspells, .done [], hlevels⟩

/-- A text is read as a type exactly if the grammar spells that type in it, with nothing but ignored
input around, and it has no more levels than allowed. Written in either style, a type reads back
exactly if it is well formed and not too deep. -/
theorem parse_eq_ok_iff_spells_type (source : List Char) (options : ReadOptions) (t : TypeRef)
    (style : Style) :
    (parse source options = .ok t ↔
      ∃ rest, SpellsType source t rest ∧ Ignored rest [] ∧ t.nesting ≤ options.depth) ∧
    (parse ((Node.type t).chars style) = .ok t ↔ t.isWellFormed = true ∧ t.nesting ≤ 64) :=
  ⟨parse_ok_iff, parse_chars_ok_iff⟩

/-- A second exclamation mark is left over. -/
example : (parse "[A ! !]".toList).toOption = none := by rfl

end QueryDoc.TypeRef
