import QueryDoc.Proofs.Atom.RoundTrip

/-! The values that are read are those that the grammar spells, numbers included: a run of number
characters is an integer if it can be one at all. -/

namespace QueryDoc

open Decimal

theorem spellsNumber_int_iff {text : List Char} {n : Int64} :
    SpellsNumber text (.int n) ↔ ∃ sign digits, text = sign ++ digits ∧
      sign ∈ [[], ['+'], ['-']] ∧ isDigits digits = true ∧
      n.toInt = signed (sign == ['-']) (natOfDigits digits) := by
  constructor
  · intro h
    cases h with
    | int hn => exact int?_eq_some_iff.mp (int64?_eq_some_iff.mp hn)
  · intro h
    exact .int (int64?_eq_some_iff.mpr (int?_eq_some_iff.mpr h))

theorem spellsNumber_float_iff {text : List Char} {x : Binary64} :
    SpellsNumber text (.float x) ↔
      (∀ n, ¬SpellsNumber text (.int n)) ∧ float? text = some x ∧ x.isFinite = true := by
  constructor
  · intro h
    cases h with
    | float hnone hx hfinite =>
      refine ⟨fun n hn => ?_, hx, hfinite⟩
      cases hn with
      | int hsome => simp [hnone] at hsome
  · rintro ⟨hint, hx, hfinite⟩
    have hnone : int64? text = none := by
      cases hn : int64? text with
      | none => rfl
      | some n => exact absurd (.int hn) (hint n)
    exact .float hnone hx hfinite

namespace Atom

/-- Reading is the grammar: a text is read as a value exactly if the grammar spells that value in it,
with nothing but ignored input around, and the value nests no deeper than allowed. A number is an
integer of 64 bits if it is written as one and in range, and else a finite floating point number. -/
theorem parse_eq_ok_iff_spelled (source : List Char) (options : ReadOptions) (a : Atom) :
    (parse source options = .ok a ↔
      ∃ rest, SpellsAtom source a rest ∧ Ignored rest [] ∧ a.nesting ≤ options.depth) ∧
    (∀ text n, SpellsNumber text (.int n) ↔ ∃ sign digits, text = sign ++ digits ∧
      sign ∈ [[], ['+'], ['-']] ∧ isDigits digits = true ∧
      n.toInt = signed (sign == ['-']) (natOfDigits digits)) ∧
    ∀ text x, SpellsNumber text (.float x) ↔
      (∀ n, ¬SpellsNumber text (.int n)) ∧ float? text = some x ∧ x.isFinite = true :=
  ⟨parse_ok_iff, fun _ _ => spellsNumber_int_iff, fun _ _ => spellsNumber_float_iff⟩

end Atom

end QueryDoc
