import QueryDoc.Proofs.Document.RoundTrip
import QueryDoc.Proofs.Selection.Balance

/-! Operations that have been put together and not read, with fields in their selection sets. Their
texts are read all the same, and what was a tree of selections is a text afterwards. -/

namespace QueryDoc

/-- An operation whose head is well formed and whose selection set is tidy is read back from its text,
in both styles, with the same head. Its selection set is kept as the trimmed text between the outer
braces of the selection set as it is written. -/
theorem Operation.parse_chars_of_tidy (style : Style) {op : Operation}
    (hname : ∀ n ∈ op.name, isName n.toList = true)
    (hvars : ∀ v ∈ op.variableDefinitions, v.WellFormed) (hdirectives : op.directives = [])
    (hset : op.selectionSet.isTidy keepsBalance = true) (hlevels : op.nesting ≤ 64) :
    ∃ inside, op.selectionSet.chars style = '{' :: (inside ++ ['}']) ∧
      Document.parse (op.chars style) =
        .ok { definitions :=
          [{ op with selectionSet := .ofBody (String.ofList (Text.trim inside)) }] } := by
  have hchars := op.selectionSet.chars_eq style
  have hinside := (SelectionSet.balanced_of_tidy style).1 op.selectionSet hset
  have hspells := spells_operation_of_inside style hname hvars hdirectives hchars hinside []
  rw [List.append_nil] at hspells
  refine ⟨_, hchars, Document.parse_ok_iff.mpr ⟨.mk hspells (.done []), ?_⟩⟩
  exact Document.nesting_le_iff.mpr (List.forall_mem_singleton.mpr hlevels)

/-- A field that holds a comment with a brace in it, before a text that ends in a comment. -/
def Operation.withComments : Operation where
  kind := .mutation
  name := some "query"
  variableDefinitions := [{ name := "v", type := .list (.nonNull (.named "Int")) }]
  selectionSet :=
    { fields := [{
        aliasName := some "a", name := "b", arguments := [("x", .object [("y", .string "\x7d#")])],
        directives := [{ name := "d", arguments := [("e", .enum "true")] }],
        selectionSet := some { fields := [], body := "c #\x7d" } }]
      body := "f \x7b g \x7d # h" }

theorem Operation.parse_chars_of_tidy_comments :
    Document.parse (Operation.withComments.chars .minified) =
      .ok { definitions := [{ Operation.withComments with
        selectionSet := .ofBody
          "a:b(x:\x7by:\"\x7d#\"\x7d) @d(e:true)\x7bc #\x7d\n\x7d f \x7b g \x7d # h" }] } := by
  obtain ⟨inside, hset, h⟩ := @Operation.parse_chars_of_tidy .minified Operation.withComments
    (by decide) (List.forall_mem_singleton.mpr ⟨by decide, by decide, nofun, rfl⟩) rfl (by decide)
    (by decide)
  have htext : Operation.withComments.selectionSet.chars .minified =
      '{' :: ("a:b(x:\x7by:\"\x7d#\"\x7d) @d(e:true)\x7bc #\x7d\n\x7d f \x7b g \x7d # h\n".toList ++
        ['}']) := by rfl
  rw [hset, List.cons.injEq, List.append_left_inj] at htext
  rw [htext.2] at h
  exact h

end QueryDoc
