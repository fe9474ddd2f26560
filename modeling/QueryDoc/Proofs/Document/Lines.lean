import QueryDoc.Proofs.Document.Solid
import QueryDoc.Proofs.Grammar.Extension

/-! Where an operation ends is settled by its text alone. So a text that ends where an operation ends is
no document without its last lines. -/

namespace QueryDoc

open ReadM

theorem ReadM.Reaches.unique {α : Type} {act : ReadM α} {s : Scanner} {a b : α}
    {rest rest' : List Char} (h : Reaches act s a rest) (h' : Reaches act s b rest') :
    significant rest = significant rest' := by
  obtain ⟨t, ht, hrest⟩ := h
  obtain ⟨t', ht', hrest'⟩ := h'
  rw [ht] at ht'
  cases ht'
  rw [← hrest, hrest']

/-- The brace that closes a selection set is the first one that is not closed inside of it. -/
theorem Balanced.rest_unique {body body' rest rest' : List Char} (h : Balanced body)
    (h' : Balanced body') (heq : body ++ '}' :: rest = body' ++ '}' :: rest') : rest = rest' := by
  have hnone : ∀ {front back : List Char}, Balanced front → ¬Balanced (front ++ '}' :: back) := by
    intro front back hfront hback
    have hrun := balanced_iff_run.mp hback
    rw [BodyScan.run_append, balanced_iff_run.mp hfront] at hrun
    cases hrun
  rcases List.append_eq_append_iff.mp heq with ⟨mid, rfl, hmid⟩ | ⟨mid, rfl, hmid⟩
  · rcases List.cons_eq_append_iff.mp hmid with ⟨-, heq⟩ | ⟨mid', rfl, -⟩
    · exact (List.cons.inj heq).2.symm
    · exact absurd h' (hnone h)
  · rcases List.cons_eq_append_iff.mp hmid with ⟨-, heq⟩ | ⟨mid', rfl, -⟩
    · exact (List.cons.inj heq).2
    · exact absurd h (hnone h')

namespace Operation

/-- What comes before the selection set. -/
def readHead (limit : Nat) : ReadM (OperationKind × Option String × List VariableDefinition) := do
  let kind ← readKind
  let name ← Token.name?
  let variableDefinitions ← readVariables limit
  return (kind, name, variableDefinitions)

theorem readHead_reaches {limit : Nat} {s : Scanner} {input vars brace cs : List Char}
    {kind : OperationKind} {name : Option String} {vs : List VariableDefinition}
    (hheader : SpellsHeader input kind name vars) (hvariables : SpellsVariables vars vs brace)
    (hbrace : significant brace = '{' :: cs) (hlevels : ∀ v ∈ vs, v.nesting ≤ limit)
    (hs : s.rest = significant input) : Reaches (readHead limit) s (kind, name, vs) brace := by
  obtain ⟨c, ds, hc, hstart⟩ := hvariables.begins hbrace
  have hnext : ∀ c ∈ (significant vars).head?, isNameStart c = false := by
    simpa [hc] using hstart
  obtain ⟨s₁, s₂, hkind, hname, hs₂⟩ := readHeader_reaches hheader hs hnext
  refine .of_bind hkind (.of_bind hname ?_)
  exact .bind (readVariables_reaches hvariables hbrace hlevels hs₂) fun s₃ hs₃ => .pure hs₃

end Operation

theorem SpellsOperation.exists_head {input rest : List Char} {op : Operation} {limit : Nat}
    (h : SpellsOperation input op rest) (hlevels : op.nesting ≤ limit) :
    ∃ head brace body,
      Reaches (Operation.readHead limit) (Scanner.start input none).skipIgnored head brace ∧
      significant brace = '{' :: (body ++ '}' :: rest) ∧ Balanced body := by
  cases h with
  | mk hheader hvariables hopen hbody =>
    have hbrace := (ignored_cons_iff (by decide)).mp hopen
    exact ⟨_, _, _, Operation.readHead_reaches hheader hvariables hbrace
      (Operation.nesting_le_iff.mp hlevels) (by simp), hbrace, hbody⟩

theorem SpellsOperation.rest_unique {input rest rest' : List Char} {op op' : Operation}
    (h : SpellsOperation input op rest) (h' : SpellsOperation input op' rest') : rest = rest' := by
  obtain ⟨_, _, _, hhead, hbrace, hbody⟩ := h.exists_head (Nat.le_max_left op.nesting op'.nesting)
  obtain ⟨_, _, _, hhead', hbrace', hbody'⟩ :=
    h'.exists_head (Nat.le_max_right op.nesting op'.nesting)
  have heq := hhead.unique hhead'
  rw [hbrace, hbrace', List.cons.injEq] at heq
  exact hbody.rest_unique hbody' heq.2

/-- A text that ends where its operation ends is no document up to one of its line feeds. -/
theorem Document.parse_ne_ok_of_spells {front back : List Char} {op : Operation}
    (h : SpellsOperation (front ++ '\n' :: back) op []) (options : ReadOptions) (d : Document) :
    parse front options ≠ .ok d := by
  intro hparse
  have hline : EndsRun (!isLineEnd ·) ('\n' :: back) := endsRun_cons.mpr (by decide)
  cases (parse_ok_iff.mp hparse).1 with
  | @mk rest op' hop _ =>
    have hrest := h.rest_unique (hop.extend hline)
    simp at hrest

end QueryDoc
