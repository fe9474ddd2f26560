import QueryDoc.Proofs.Reading.Readers

/-! Reading with a limit on nesting and with a higher one. The two runs do the same step by step until
the lower limit is exceeded, and then the first run stops and says so. -/

namespace QueryDoc

open ReadM

namespace ReadM

variable {α β : Type} {limit : Nat}

/-- The first action does what the second one does, unless it stops because of the limit. -/
def UpTo (limit : Nat) (act act' : ReadM α) : Prop :=
  ∀ s, act s = act' s ∨ ∃ e s', act s = .error e s' ∧ e.cause = .nestedTooDeep limit

theorem UpTo.refl (limit : Nat) (act : ReadM α) : UpTo limit act act :=
  fun _ => .inl rfl

theorem UpTo.bind {act act' : ReadM α} {f f' : α → ReadM β} (h : UpTo limit act act')
    (hf : ∀ a, UpTo limit (f a) (f' a)) : UpTo limit (act >>= f) (act' >>= f') := by
  intro s
  rcases h s with heq | ⟨e, s', he, hcause⟩
  · cases hact : act' s with
    | ok a s' =>
      rw [bind_of_ok (heq.trans hact), bind_of_ok hact]
      exact hf a s'
    | error e s' => exact .inl (by rw [bind_of_error (heq.trans hact), bind_of_error hact])
  · exact .inr ⟨e, s', bind_of_error he, hcause⟩

/-- What is done before the first value or type does not depend on the limit. -/
theorem UpTo.composes : Composes (m := ReadM) (n := ReadM) fun _ => UpTo limit :=
  ⟨fun _ => .refl limit _, fun _ => .refl limit _, .bind⟩

theorem UpTo.nestedTooDeep (act' : ReadM α) :
    UpTo limit (failWith fun s => .nestedTooDeep limit s.nextSpan) act' :=
  fun s => .inr ⟨_, s, rfl, rfl⟩

/-- Counting down from fewer levels, the first run is the first to stop. -/
theorem UpTo.countdown {read read' : Nat → ReadM α}
    (hzero : read 0 = failWith fun s => .nestedTooDeep limit s.nextSpan)
    (hsucc : ∀ levels levels', UpTo limit (read levels) (read' levels') →
      UpTo limit (read (levels + 1)) (read' (levels' + 1)))
    {levels levels' : Nat} (h : levels ≤ levels') : UpTo limit (read levels) (read' levels') := by
  induction levels generalizing levels' with
  | zero =>
    rw [hzero]
    exact .nestedTooDeep _
  | succ levels ih =>
    obtain ⟨levels', rfl⟩ := Nat.exists_eq_add_of_le' (Nat.lt_of_lt_of_le (Nat.succ_pos _) h)
    exact hsucc levels levels' (ih (by omega))

end ReadM

variable {limit limit' levels levels' : Nat}

theorem TypeRef.readWithin_upTo (h : levels ≤ levels') :
    UpTo limit (readWithin limit levels) (readWithin limit' levels') := by
  refine .countdown rfl (fun k k' hh => ?_) h
  rw [readWithin_eq_by, readWithin_eq_by]
  exact readBy_related UpTo.composes hh

theorem Atom.readWithin_upTo (h : levels ≤ levels') :
    UpTo limit (readWithin limit levels) (readWithin limit' levels') := by
  refine .countdown rfl (fun k k' hh => ?_) h
  rw [readWithin_eq_by, readWithin_eq_by]
  exact readBy_related UpTo.composes hh

end QueryDoc
