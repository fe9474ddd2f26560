import QueryDoc.Proofs.Depth.Value
import QueryDoc.Proofs.Document.Reading

/-! The limit on nesting is exact, and it decides nothing but whether a document nests too deep. -/

namespace QueryDoc

open ReadM

variable {limit limit' : Nat}

namespace Document

variable {source : List Char} {file : Option String}

theorem parse_upTo (h : limit ≤ limit') :
    parse source { depth := limit, file } = parse source { depth := limit', file } ∨
      ∃ e, parse source { depth := limit, file } = .error e ∧ e.cause = .nestedTooDeep limit := by
  have hread : UpTo limit (read limit) (read limit') := by
    rw [read_eq_by, read_eq_by]
    exact readBy_related UpTo.composes (TypeRef.readWithin_upTo h) (Atom.readWithin_upTo h)
  rcases hread (.start source file) with heq | ⟨e, s', he, hcause⟩
  · exact .inl (by simp only [parse, onText, heq])
  · exact .inr ⟨e, by simp only [parse, onText, he], hcause⟩

/-- A limit that is not exceeded might as well be higher. A document that is read under some limit is
read under a lower one too if it nests no deeper than that, and otherwise the error names that limit. -/
theorem parse_depth_exact (source : List Char) (file : Option String) (m m' : Nat) (h : m ≤ m') :
    ((∀ e limit, parse source { depth := m, file } = .error e → e.cause ≠ .nestedTooDeep limit) →
      parse source { depth := m', file } = parse source { depth := m, file }) ∧
    ∀ d, parse source { depth := m', file } = .ok d →
      (d.nesting ≤ m → parse source { depth := m, file } = .ok d) ∧
      (m < d.nesting →
        ∃ e, parse source { depth := m, file } = .error e ∧ e.cause = .nestedTooDeep m) := by
  refine ⟨fun hfits => ?_, fun d hd => ⟨fun hlevels => ?_, fun hlevels => ?_⟩⟩
  · rcases parse_upTo h with heq | ⟨e, he, hcause⟩
    · exact heq.symm
    · exact absurd hcause (hfits e m he)
  · exact parse_ok_iff.mpr ⟨(parse_ok_iff.mp hd).1, hlevels⟩
  · rcases parse_upTo h with heq | herror
    · have hle : d.nesting ≤ m := (parse_ok_iff.mp (heq.trans hd)).2
      omega
    · exact herror

theorem parse_depth_exact_list_default :
    ∃ d, parse "($a:[T]=[X])\x7ba\x7d".toList { depth := 3 } = .ok d ∧
      parse "($a:[T]=[X])\x7ba\x7d".toList { depth := 2 } = .ok d ∧
      ∃ e, parse "($a:[T]=[X])\x7ba\x7d".toList { depth := 1 } = .error e ∧
        e.cause = .nestedTooDeep 1 := by
  obtain ⟨d, hd, hnesting⟩ : ∃ d, parse "($a:[T]=[X])\x7ba\x7d".toList { depth := 3 } = .ok d ∧
      d.nesting = 2 := by
    refine ⟨{ definitions := [{ variableDefinitions := [?_], selectionSet := .ofBody "a" }] }, ?_, ?_⟩
    · exact { name := "a", type := .list (.named "T"), defaultValue := some (.list [.enum "X"]) }
    · rfl
    · rfl
  refine ⟨d, hd, ?_, ?_⟩
  · exact ((parse_depth_exact _ none 2 3 (by decide)).2 d hd).1 (by omega)
  · exact ((parse_depth_exact _ none 1 3 (by decide)).2 d hd).2 (by omega)

end Document

end QueryDoc
