import QueryDoc.Proofs.Progress.Readers

/-! The loops of the readers, left to themselves: a turn is made again and again, and nothing else bounds
how often. Each turn that is followed by another one passes over a character, so that a loop ends after one
turn more than there are characters at most. The turns that a reader allows itself are never used up. -/

namespace QueryDoc

/-- What comes of a turn: the loop goes on from a new state, or it has its answer. -/
inductive Turn (β α : Type) where
  | again (b : β)
  | done (a : α)

/-- The loop that starts in a state ends after so many turns, with an answer or with an error. -/
inductive Loops {β α : Type} (turn : β → ReadM (Turn β α)) :
    (turns : Nat) → β → Scanner → EStateM.Result ReadError Scanner α → Prop
  | done {b : β} {s t : Scanner} {a : α} : turn b s = .ok (.done a) t → Loops turn 1 b s (.ok a t)
  | error {b : β} {s t : Scanner} {e : ReadError} : turn b s = .error e t →
      Loops turn 1 b s (.error e t)
  | again {turns : Nat} {b c : β} {s t : Scanner} {r : EStateM.Result ReadError Scanner α} :
      turn b s = .ok (.again c) t → Loops turn turns c t r → Loops turn (turns + 1) b s r

/-- The loop ends with this result and with no other, after one turn more than there are characters left at
most. -/
def LoopsInTime {β α : Type} (turn : β → ReadM (Turn β α)) (b : β) (s : Scanner)
    (r : EStateM.Result ReadError Scanner α) : Prop :=
  (∃ turns, Loops turn turns b s r) ∧
    ∀ turns r', Loops turn turns b s r' → r' = r ∧ turns ≤ s.rest.length + 1

/-- A loop with a bound on its turns. -/
def loopWithin {β α : Type} (turn : β → ReadM (Turn β α)) (exhausted : ReadM α) :
    (turns : Nat) → β → ReadM α
  | 0, _ => exhausted
  | turns + 1, b => do
    match ← turn b with
    | .again c => loopWithin turn exhausted turns c
    | .done a => return a

open ReadM

section

variable {β α : Type} {turn : β → ReadM (Turn β α)} {turns : Nat} {s : Scanner}

/-- Each turn that is followed by another one passes over a character at least. -/
def Spends (turn : β → ReadM (Turn β α)) : Prop :=
  ∀ ⦃b s c t⦄, turn b s = .ok (.again c) t → t.rest.length < s.rest.length

theorem Loops.unique {m n : Nat} {b : β} {r r' : EStateM.Result ReadError Scanner α}
    (h : Loops turn m b s r) (h' : Loops turn n b s r') : r' = r ∧ n = m := by
  induction h generalizing n with
  | done hb | error hb => cases h' <;> simp_all
  | again hb _ ih =>
    cases h' with
    | done hb' | error hb' => cases hb.symm.trans hb'
    | again hb' hloops =>
      cases hb.symm.trans hb'
      obtain ⟨rfl, rfl⟩ := ih hloops
      exact ⟨rfl, rfl⟩

theorem Spends.exists_loops (h : Spends turn) (exhausted : ReadM α) (b : β)
    (hturns : s.rest.length < turns) :
    ∃ n ≤ s.rest.length + 1, Loops turn n b s (loopWithin turn exhausted turns b s) := by
  induction turns generalizing b s with
  | zero => omega
  | succ turns ih =>
    cases hturn : turn b s with
    | error e t =>
      refine ⟨1, by omega, ?_⟩
      rw [loopWithin, bind_of_error hturn]
      exact .error hturn
    | ok next t =>
      rw [loopWithin, bind_of_ok hturn]
      cases next with
      | done a => exact ⟨1, by omega, .done hturn⟩
      | again c =>
        have hlt := h hturn
        obtain ⟨n, hn, hloops⟩ := ih c (s := t) (by omega)
        exact ⟨n + 1, by omega, .again hturn hloops⟩

theorem Spends.loopsInTime (h : Spends turn) (exhausted : ReadM α) (b : β)
    (hturns : s.rest.length < turns) :
    LoopsInTime turn b s (loopWithin turn exhausted turns b s) := by
  obtain ⟨n, hn, hloops⟩ := h.exists_loops exhausted b hturns
  refine ⟨⟨n, hloops⟩, fun m r' hh => ?_⟩
  obtain ⟨hresult, rfl⟩ := hloops.unique hh
  exact ⟨hresult, hn⟩

end

/-! ### Phrases in a row -/

section

variable {α : Type} {closing : Char} {delimiter : String} {opening : Span} {item : ReadM α}

def untilTurn (closing : Char) (delimiter : String) (opening : Span) (item : ReadM α) (items : List α) :
    ReadM (Turn (List α) (List α)) := do
  if (← Token.peekInside delimiter opening) = closing then return .done items
  else
    let a ← item
    return .again (items ++ [a])

theorem untilTurn_spends (hitem : Consumes item) :
    Spends (untilTurn closing delimiter opening item) := by
  intro items s c t h
  obtain ⟨d, s₁, hpeek, h⟩ := bind_ok_iff.mp h
  have hle := (Token.peekInside_advances _ _).length_le hpeek
  split at h
  · cases (pure_ok_iff.mp h).1
  · obtain ⟨a, s₂, ha, h⟩ := bind_ok_iff.mp h
    obtain ⟨-, rfl⟩ := pure_ok_iff.mp h
    exact (hitem ha).trans_le hle

theorem loopWithin_untilTurn (turns : Nat) (items : List α) :
    loopWithin (untilTurn closing delimiter opening item) (failWith (·.unclosed delimiter opening)) turns
      items = (items ++ ·) <$> readUntil closing delimiter opening item turns := by
  induction turns generalizing items with
  | zero => rfl
  | succ turns ih =>
    rw [loopWithin, readUntil, untilTurn, bind_assoc, map_bind]
    refine bind_congr fun c => ?_
    by_cases hc : c = closing
    · simp [if_pos hc]
    · simp [if_neg hc, ih]

theorem readUntil_loopsInTime (hitem : Consumes item) {turns : Nat} {s : Scanner}
    (hturns : s.rest.length < turns) :
    LoopsInTime (untilTurn closing delimiter opening item) [] s
      (readUntil closing delimiter opening item turns s) := by
  have hread : loopWithin (untilTurn closing delimiter opening item)
      (failWith (·.unclosed delimiter opening)) turns [] =
      readUntil closing delimiter opening item turns := by simp [loopWithin_untilTurn]
  rw [← hread]
  exact (untilTurn_spends hitem).loopsInTime _ _ hturns

end

/-! ### Fields -/

namespace Atom

variable {value : ReadM Atom} {opening : Span}

/-- The loop goes on from the fields read so far and from their keys with their places. -/
def fieldTurn (value : ReadM Atom) (opening : Span)
    (soFar : List (String × Atom) × List (String × Span)) :
    ReadM (Turn (List (String × Atom) × List (String × Span)) (List (String × Atom))) := do
  if (← Token.peekInside "\x7b" opening) = '}' then return .done soFar.1
  else
    let start ← get
    let key ← Token.name
    let span := (← get).spanFrom start.position
    match soFar.2.lookup key with
    | some first => failWith fun _ => .duplicateField key span first
    | none =>
      let _ ← Token.literal ":"
      let a ← value
      return .again (soFar.1 ++ [(key, a)], (key, span) :: soFar.2)

theorem fieldTurn_spends (hvalue : ∀ {s}, Advances value s) : Spends (fieldTurn value opening) := by
  intro soFar s c t h
  obtain ⟨d, s₁, hpeek, h⟩ := bind_ok_iff.mp h
  have hle := (Token.peekInside_advances _ _).length_le hpeek
  split at h
  · cases (pure_ok_iff.mp h).1
  · obtain ⟨start, s₂, hstart, h⟩ := bind_ok_iff.mp h
    cases hstart
    obtain ⟨key, s₃, hkey, h⟩ := bind_ok_iff.mp h
    obtain ⟨after, s₄, hafter, h⟩ := bind_ok_iff.mp h
    cases hafter
    have hname := Token.name_consumes hkey
    cases hlookup : soFar.2.lookup key with
    | some first =>
      simp only [hlookup] at h
      exact (failWith_ok_iff.mp h).elim
    | none =>
      simp only [hlookup] at h
      obtain ⟨colon, s₄, hcolon, h⟩ := bind_ok_iff.mp h
      obtain ⟨a, s₅, ha, h⟩ := bind_ok_iff.mp h
      obtain ⟨-, rfl⟩ := pure_ok_iff.mp h
      have hcolon' := (Token.literal_advances _).length_le hcolon
      have ha' := hvalue.length_le ha
      omega

theorem loopWithin_fieldTurn (turns : Nat) (fields : List (String × Atom))
    (seen : List (String × Span)) :
    loopWithin (fieldTurn value opening) (failWith (·.unclosed "\x7b" opening)) turns (fields, seen) =
      (fields ++ ·) <$> readFields value opening turns seen := by
  induction turns generalizing fields seen with
  | zero => rfl
  | succ turns ih =>
    rw [loopWithin, readFields, fieldTurn, bind_assoc, map_bind]
    refine bind_congr fun c => ?_
    by_cases hc : c = '}'
    · simp [if_pos hc]
    · simp only [if_neg hc, bind_assoc, map_bind]
      refine bind_congr fun start => bind_congr fun key => bind_congr fun after => ?_
      cases seen.lookup key with
      | some first => rfl
      | none => simp [ih]

theorem readFields_loopsInTime (hvalue : ∀ {s}, Advances value s) {turns : Nat} {s : Scanner}
    (hturns : s.rest.length < turns) :
    LoopsInTime (fieldTurn value opening) ([], []) s (readFields value opening turns [] s) := by
  have hread : loopWithin (fieldTurn value opening) (failWith (·.unclosed "\x7b" opening)) turns
      ([], []) = readFields value opening turns [] := by simp [loopWithin_fieldTurn]
  rw [← hread]
  exact (fieldTurn_spends hvalue).loopsInTime _ _ hturns

end Atom

/-! ### The inside of a selection set -/

namespace SelectionSet

variable {opening : Span}

/-- The loop goes on from the number of braces that are open inside. -/
def bodyTurn (opening : Span) (depth : Nat) : ReadM (Turn Nat Unit) := do
  match (← get).peek? with
  | none => failWith (·.unclosed "\x7b" opening)
  | some '{' =>
    modify Scanner.advance
    return .again (depth + 1)
  | some '}' =>
    match depth with
    | 0 => return .done ()
    | depth + 1 =>
      modify Scanner.advance
      return .again depth
  | some '"' =>
    let _ ← Token.string
    return .again depth
  | some '#' =>
    modify Scanner.skipComment
    return .again depth
  | some _ =>
    modify Scanner.advance
    return .again depth

theorem bodyTurn_spends : Spends (bodyTurn opening) := by
  intro depth s c t h
  rw [bodyTurn.eq_def] at h
  obtain ⟨here, s₁, hget, h⟩ := bind_ok_iff.mp h
  cases hget
  have hadvance : ∀ {d : Char}, s.peek? = some d → s.advance.rest.length < s.rest.length := by
    intro d hd
    obtain ⟨cs, hcs⟩ := List.head?_eq_some_iff.mp hd
    simp [hcs]
  -- The cases are split on an action that is run, not on a function that is applied.
  change EStateM.run _ s = _ at h
  split at h
  · exact (failWith_ok_iff.mp h).elim
  · next hopen =>
    cases h
    exact hadvance hopen
  · next hclose =>
    cases depth with
    | zero => cases h
    | succ depth =>
      cases h
      exact hadvance hclose
  · obtain ⟨text, s₁, htext, h⟩ := bind_ok_iff.mp h
    cases h
    exact length_lt_of_string htext
  · next hsign =>
    obtain ⟨cs, hcs⟩ := List.head?_eq_some_iff.mp hsign
    cases h
    exact length_skipComment_lt hcs
  · next hplain =>
    cases h
    exact hadvance hplain

theorem loopWithin_bodyTurn (turns depth : Nat) :
    loopWithin (bodyTurn opening) (failWith (·.unclosed "\x7b" opening)) turns depth =
      skipBody opening turns depth := by
  induction turns generalizing depth with
  | zero => rfl
  | succ turns ih =>
    rw [loopWithin, skipBody.eq_def, bodyTurn.eq_def, bind_assoc]
    refine bind_congr fun s => ?_
    generalize s.peek? = next
    split
    · rfl
    · simp [ih]
    · cases depth <;> simp [ih]
    · simp [ih]
    · simp [ih]
    · simp [ih]

theorem skipBody_loopsInTime {turns : Nat} {s : Scanner} (hturns : s.rest.length < turns) (depth : Nat) :
    LoopsInTime (bodyTurn opening) depth s (skipBody opening turns depth s) := by
  rw [← loopWithin_bodyTurn]
  exact bodyTurn_spends.loopsInTime _ _ hturns

end SelectionSet

/-- Reading makes progress from every place. No call goes back, whether it answers or stops with an error,
and neither a name nor a value, a type, a variable, a selection set or an operation is read without passing
over a byte, however many levels are left. So the loops of the readers end after one turn more than there
are characters at most, though nothing else bounds them, and come to what the readers make of them. -/
theorem reading_progresses (limit levels : Nat) :
    (∀ (call : Call) (s : Scanner),
      s.position.offset ≤ (outcome (call.act limit) s).2.position.offset) ∧
    (∀ call ∈ [Call.name, .value, .type, .variableDefinition, .operation],
      Progresses (call.act limit)) ∧
    Progresses SelectionSet.read ∧
    let type := TypeRef.readWithin limit levels
    let value := Atom.readWithin limit levels
    Progresses type ∧ Progresses value ∧ Progresses (VariableDefinition.readBy type value) ∧
    Progresses (Operation.readBy type value) ∧
    ∀ (opening : Span) (s : Scanner),
      LoopsInTime (untilTurn ']' "[" opening value) [] s
        (Atom.readItems value opening (s.rest.length + 1) s) ∧
      LoopsInTime (Atom.fieldTurn value opening) ([], []) s
        (Atom.readFields value opening (s.rest.length + 1) [] s) ∧
      LoopsInTime (untilTurn ')' "(" opening (VariableDefinition.read limit)) [] s
        (VariableDefinition.readEach limit opening (s.rest.length + 1) s) ∧
      LoopsInTime (SelectionSet.bodyTurn opening) 0 s
        (SelectionSet.skipBody opening (s.rest.length + 1) 0 s) := by
  have htype : ∀ s, Advances (TypeRef.readWithin limit levels) s := fun _ => TypeRef.readWithin_advances
  have hvalue : ∀ s, Advances (Atom.readWithin limit levels) s := fun _ => Atom.readWithin_advances
  refine ⟨fun call s => (call.act_advances limit).offset_le, Call.act_progresses limit,
    SelectionSet.read_progresses, TypeRef.readWithin_progresses, Atom.readWithin_progresses,
    VariableDefinition.readBy_progresses htype hvalue, Operation.readBy_progresses htype hvalue,
    fun opening s => ?_⟩
  have hturns : s.rest.length < s.rest.length + 1 := Nat.lt_succ_self _
  refine ⟨?_, Atom.readFields_loopsInTime (hvalue _) hturns, ?_,
    SelectionSet.skipBody_loopsInTime hturns 0⟩
  · rw [Atom.readItems_eq]
    exact readUntil_loopsInTime (Atom.readWithin_consumes limit levels) hturns
  · rw [VariableDefinition.readEach_eq]
    exact readUntil_loopsInTime (VariableDefinition.read_consumes limit) hturns

theorem reading_progresses_unclosed :
    let s := Scanner.start "a\x7b".toList
    let turn := SelectionSet.bodyTurn s.nextSpan
    let r := SelectionSet.skipBody s.nextSpan 3 0 s
    Call.act 1 .name s = .ok "a" s.advance ∧ s.position.offset < s.advance.position.offset ∧
      LoopsInTime turn 0 s r ∧ Loops turn 3 0 s r := by
  intro s turn r
  have hread : Call.act 1 .name s = .ok "a" s.advance := rfl
  obtain ⟨-, hcalls, -, -, -, -, -, hloops⟩ := reading_progresses 1 1
  refine ⟨hread, (hcalls .name (by simp) s).2 _ _ hread, (hloops s.nextSpan s).2.2.2, ?_⟩
  exact .again rfl (.again rfl (.error rfl))

end QueryDoc
