import QueryDoc.Proofs.Document.Reading
import QueryDoc.Proofs.Reading.Advance

/-! The readers of types, values, variables, operations and documents, written for any monad in which a
scanner can be moved, by a way to read the types and values inside. What relates two ways to read types and
values relates the readers that are made of them. -/

namespace QueryDoc

open ReadM

section

variable {m : Type → Type} [Monad m] [MonadLiftT ReadM m] {α : Type}

/-- Reads phrases in a row up to a closing delimiter, by a way to read one of them. -/
def readUntilBy (closing : Char) (delimiter : String) (opening : Span) (item : m α) :
    (turns : Nat) → m (List α)
  | 0 => failWith (·.unclosed delimiter opening)
  | turns + 1 => do
    if (← Token.peekInside delimiter opening) = closing then return []
    else
      let a ← item
      let rest ← readUntilBy closing delimiter opening item turns
      return a :: rest

/-- Reads a type by a way to read the type inside a list. -/
def TypeRef.readBy (inner : m TypeRef) : m TypeRef := do
  if (← Token.peek "type") = '[' then
    let opening ← Token.literal "["
    let t ← inner
    let _ ← Token.peekInside "[" opening
    let _ ← Token.literal "]"
    readMark (list t)
  else
    let name ← withHelp "a type is a name like `Int` or a list type like `[Int]`" Token.name
    readMark (named name)

namespace Atom

def readListBy (item : m Atom) : m Atom := do
  let opening ← Token.literal "["
  let items ← readUntilBy ']' "[" opening item ((← (get : ReadM Scanner)).rest.length + 1)
  let _ ← Token.literal "]"
  return list items

def readFieldsBy (value : m Atom) (opening : Span) :
    (turns : Nat) → (seen : List (String × Span)) → m (List (String × Atom))
  | 0, _ => failWith (·.unclosed "\x7b" opening)
  | turns + 1, seen => do
    if (← Token.peekInside "\x7b" opening) = '}' then return []
    else
      let start ← (get : ReadM Scanner)
      let key ← Token.name
      let span := (← (get : ReadM Scanner)).spanFrom start.position
      match seen.lookup key with
      | some first => failWith fun _ => .duplicateField key span first
      | none =>
        let _ ← Token.literal ":"
        let a ← value
        let rest ← readFieldsBy value opening turns ((key, span) :: seen)
        return (key, a) :: rest

def readObjectBy (value : m Atom) : m Atom := do
  let opening ← Token.literal "\x7b"
  let fields ← readFieldsBy value opening ((← (get : ReadM Scanner)).rest.length + 1) []
  let _ ← Token.literal "\x7d"
  return object fields

/-- Reads a value by a way to read the values inside it. -/
def readBy (inner : m Atom) : m Atom := do
  let c ← Token.peek "value"
  if isNumberStart c then readNumber
  else if c = '"' then return string (← Token.string)
  else if c = 't' then readKeyword "true" (bool true)
  else if c = 'f' then readKeyword "false" (bool false)
  else if c = 'n' then readKeyword "null" null
  else if c = '[' then readListBy inner
  else if c = '{' then readObjectBy inner
  else
    match ← Token.name? with
    | some name => return enum name
    | none => failWith (·.unexpected ["value"])

end Atom

variable (type : m TypeRef) (value : m Atom)

namespace VariableDefinition

def readDefaultBy : m (Option Atom) := do
  if (← Token.peek?) = some '=' then
    let _ ← Token.literal "="
    let a ← value
    return some a
  else return none

def readBy : m VariableDefinition := do
  let _ ← Token.literal "$"
  let name ← Token.name
  let _ ← withHelp "variable definitions look like `$name: Type`" (Token.literal ":")
  let type ← type
  let defaultValue ← readDefaultBy value
  refuseDirectives { name, type, defaultValue }

def readListBy : m (List VariableDefinition) := do
  let opening ← Token.literal "("
  if (← Token.peekInside "(" opening) = ')' then
    failWith fun s => .emptyVariables s.nextSpan
  else
    let turns := (← (get : ReadM Scanner)).rest.length + 1
    let definitions ← readUntilBy ')' "(" opening (readBy type value) turns
    let _ ← Token.literal ")"
    return definitions

end VariableDefinition

namespace Operation

def readVariablesBy : m (List VariableDefinition) := do
  if (← Token.peek?) = some '(' then VariableDefinition.readListBy type value else return []

def readBy : m Operation := do
  let _ ← Token.peek "operation definition"
  let kind ← readKind
  let name ← Token.name?
  let variableDefinitions ← readVariablesBy type value
  readEnd kind name variableDefinitions

end Operation

def Document.readBy : m Document := do
  let op ← Operation.readBy type value
  finish
  return { definitions := [op] }

end

/-! ### Readers of the scanner alone -/

theorem readUntil_eq_by {α : Type} (closing : Char) (delimiter : String) (opening : Span)
    (item : ReadM α) (turns : Nat) :
    readUntil closing delimiter opening item turns =
      readUntilBy closing delimiter opening item turns := by
  induction turns with
  | zero => rfl
  | succ turns ih =>
    rw [readUntil, ih]
    rfl

theorem TypeRef.readWithin_eq_by (limit levels : Nat) :
    readWithin limit (levels + 1) = readBy (readWithin limit levels) :=
  rfl

namespace Atom

theorem readFields_eq_by (value : ReadM Atom) (opening : Span) (turns : Nat)
    (seen : List (String × Span)) :
    readFields value opening turns seen = readFieldsBy value opening turns seen := by
  induction turns generalizing seen with
  | zero => rfl
  | succ turns ih =>
    simp only [readFields, ih]
    rfl

theorem readWithin_eq_by (limit levels : Nat) :
    readWithin limit (levels + 1) = readBy (readWithin limit levels) := by
  simp only [readWithin, readList, readObject, readItems_eq, readUntil_eq_by, readFields_eq_by]
  rfl

end Atom

theorem VariableDefinition.read_eq_by (limit : Nat) :
    read limit = readBy (TypeRef.read limit) (Atom.read limit) :=
  read_eq limit

theorem Operation.read_eq_by (limit : Nat) :
    read limit = readBy (TypeRef.read limit) (Atom.read limit) := by
  rw [read_eq, readVariables, VariableDefinition.readList]
  simp only [VariableDefinition.readEach_eq, readUntil_eq_by, VariableDefinition.read_eq_by]
  rfl

theorem Document.read_eq_by (limit : Nat) :
    read limit = readBy (TypeRef.read limit) (Atom.read limit) := by
  rw [read, Operation.read_eq_by]
  rfl

/-! ### Relations between readers -/

section

variable {m n : Type → Type} [Monad m] [MonadLiftT ReadM m] [Monad n] [MonadLiftT ReadM n]

/-- The relation holds of whatever is done to the scanner alone, and is kept when one action follows
another. -/
structure Composes (R : (α : Type) → m α → n α → Prop) : Prop where
  lift : ∀ {α : Type} {act : ReadM α}, (∀ {s}, Advances act s) → R _ (liftM act) (liftM act)
  pure : ∀ {α : Type} (a : α), R _ (pure a) (pure a)
  bind : ∀ {α β : Type} {act : m α} {act' : n α} {f : α → m β} {f' : α → n β}, R _ act act' →
    (∀ a, R _ (f a) (f' a)) → R _ (act >>= f) (act' >>= f')

/-- An action that moves on is related to itself alone. -/
theorem ReadM.Advances.composes :
    Composes (m := ReadM) (n := ReadM) fun _ act act' => act = act' ∧ ∀ s, Advances act s :=
  ⟨fun hact => ⟨rfl, fun _ => hact⟩, fun a => ⟨rfl, fun _ => .pure a⟩, fun hact hf =>
    ⟨congrArg₂ _ hact.1 (funext fun a => (hf a).1), fun s => (hact.2 s).bind fun a => (hf a).2⟩⟩

variable {R : (α : Type) → m α → n α → Prop} {α β : Type} {s : Scanner}

theorem Composes.after (h : Composes R) {act : ReadM α} (hact : ∀ {s}, Advances act s) {f : α → m β}
    {f' : α → n β} (hf : ∀ a, R _ (f a) (f' a)) : R _ (liftM act >>= f) (liftM act >>= f') :=
  h.bind (h.lift hact) hf

theorem Composes.look (h : Composes R) {f : Scanner → m β} {f' : Scanner → n β}
    (hf : ∀ s, R _ (f s) (f' s)) :
    R _ (liftM (get : ReadM Scanner) >>= f) (liftM (get : ReadM Scanner) >>= f') :=
  h.after (.of_stays rfl) hf

theorem Composes.failWith (h : Composes R) (error : Scanner → ReadError) :
    R _ (liftM (failWith error : ReadM α)) (liftM (failWith error : ReadM α)) :=
  h.lift (.failWith error)

theorem readUntilBy_related (h : Composes R) {closing : Char} {delimiter : String} {opening : Span}
    {item : m α} {item' : n α} (hitem : R _ item item') (turns : Nat) :
    R _ (readUntilBy closing delimiter opening item turns)
      (readUntilBy closing delimiter opening item' turns) := by
  induction turns with
  | zero => exact h.failWith _
  | succ turns ih =>
    refine h.after (Token.peekInside_advances _ _) fun c => ?_
    split
    · exact h.pure _
    · exact h.bind hitem fun a => h.bind ih fun rest => h.pure _

theorem TypeRef.readMark_advances (base : TypeRef) : Advances (readMark base) s := by
  refine .bind Token.peek?_advances fun c t => ?_
  split
  · exact .bind (Token.literal_advances _) fun _ _ => .pure _
  · exact .pure _

theorem TypeRef.readBy_related (h : Composes R) {inner : m TypeRef} {inner' : n TypeRef}
    (hinner : R _ inner inner') : R _ (readBy inner) (readBy inner') := by
  refine h.after (Token.peek_advances _) fun c => ?_
  split
  · refine h.after (Token.literal_advances _) fun opening => h.bind hinner fun t => ?_
    refine h.after (Token.peekInside_advances _ _) fun _ => ?_
    exact h.after (Token.literal_advances _) fun _ => h.lift (readMark_advances _)
  · exact h.after (.withHelp Token.name_advances) fun name => h.lift (readMark_advances _)

namespace Atom

variable {inner : m Atom} {inner' : n Atom}

theorem readListBy_related (h : Composes R) (hinner : R _ inner inner') :
    R _ (readListBy inner) (readListBy inner') := by
  refine h.after (Token.literal_advances _) fun opening => h.look fun s => ?_
  refine h.bind (readUntilBy_related h hinner _) fun items => ?_
  exact h.after (Token.literal_advances _) fun _ => h.pure _

theorem readFieldsBy_related (h : Composes R) (hinner : R _ inner inner') (opening : Span) (turns : Nat)
    (seen : List (String × Span)) :
    R _ (readFieldsBy inner opening turns seen) (readFieldsBy inner' opening turns seen) := by
  induction turns generalizing seen with
  | zero => exact h.failWith _
  | succ turns ih =>
    refine h.after (Token.peekInside_advances _ _) fun c => ?_
    split
    · exact h.pure _
    refine h.look fun start => h.after Token.name_advances fun key => h.look fun s => ?_
    cases seen.lookup key with
    | some first => exact h.failWith _
    | none =>
      refine h.after (Token.literal_advances _) fun _ => h.bind hinner fun a => ?_
      exact h.bind (ih _) fun rest => h.pure _

theorem readObjectBy_related (h : Composes R) (hinner : R _ inner inner') :
    R _ (readObjectBy inner) (readObjectBy inner') := by
  refine h.after (Token.literal_advances _) fun opening => h.look fun s => ?_
  refine h.bind (readFieldsBy_related h hinner opening _ []) fun fields => ?_
  exact h.after (Token.literal_advances _) fun _ => h.pure _

theorem readBy_related (h : Composes R) (hinner : R _ inner inner') :
    R _ (readBy inner) (readBy inner') := by
  refine h.after (Token.peek_advances _) fun c => ?_
  by_cases hlist : c = '['
  · subst hlist
    exact readListBy_related h hinner
  by_cases hobject : c = '{'
  · subst hobject
    exact readObjectBy_related h hinner
  -- No other kind of value has values inside.
  simp only [if_neg hlist, if_neg hobject]
  split
  · exact h.lift readNumber_advances
  split
  · exact h.after Token.string_advances fun text => h.pure _
  split
  · exact h.lift (readKeyword_advances _ _)
  split
  · exact h.lift (readKeyword_advances _ _)
  split
  · exact h.lift (readKeyword_advances _ _)
  refine h.after Token.name?_advances fun name => ?_
  cases name with
  | some name => exact h.pure _
  | none => exact h.failWith _

end Atom

variable {type : m TypeRef} {type' : n TypeRef} {value : m Atom} {value' : n Atom}

namespace VariableDefinition

theorem refuseDirectives_advances (v : VariableDefinition) : Advances (refuseDirectives v) s := by
  refine .bind Token.peek?_advances fun c t => ?_
  split
  · exact .failWith _
  · exact .pure _

theorem readDefaultBy_related (h : Composes R) (hvalue : R _ value value') :
    R _ (readDefaultBy value) (readDefaultBy value') := by
  refine h.after Token.peek?_advances fun c => ?_
  split
  · exact h.after (Token.literal_advances _) fun _ => h.bind hvalue fun a => h.pure _
  · exact h.pure _

theorem readBy_related (h : Composes R) (htype : R _ type type') (hvalue : R _ value value') :
    R _ (readBy type value) (readBy type' value') := by
  refine h.after (Token.literal_advances _) fun _ => h.after Token.name_advances fun name => ?_
  refine h.after (.withHelp (Token.literal_advances _)) fun _ => h.bind htype fun t => ?_
  refine h.bind (readDefaultBy_related h hvalue) fun default => ?_
  exact h.lift (refuseDirectives_advances _)

theorem readListBy_related (h : Composes R) (htype : R _ type type') (hvalue : R _ value value') :
    R _ (readListBy type value) (readListBy type' value') := by
  refine h.after (Token.literal_advances _) fun opening => ?_
  refine h.after (Token.peekInside_advances _ _) fun c => ?_
  split
  · exact h.failWith _
  refine h.look fun s => ?_
  refine h.bind (readUntilBy_related h (readBy_related h htype hvalue) _) fun definitions => ?_
  exact h.after (Token.literal_advances _) fun _ => h.pure _

end VariableDefinition

namespace Operation

theorem readVariablesBy_related (h : Composes R) (htype : R _ type type') (hvalue : R _ value value') :
    R _ (readVariablesBy type value) (readVariablesBy type' value') := by
  refine h.after Token.peek?_advances fun c => ?_
  split
  · exact VariableDefinition.readListBy_related h htype hvalue
  · exact h.pure _

theorem readEnd_advances (kind : OperationKind) (name : Option String)
    (vs : List VariableDefinition) : Advances (readEnd kind name vs) s := by
  refine .bind Token.peek?_advances fun c t => ?_
  split
  · exact .failWith _
  · exact .bind SelectionSet.read_advances fun _ _ => .pure _

theorem readBy_related (h : Composes R) (htype : R _ type type') (hvalue : R _ value value') :
    R _ (readBy type value) (readBy type' value') := by
  refine h.after (Token.peek_advances _) fun _ => h.after readKind_advances fun kind => ?_
  refine h.after Token.name?_advances fun name => ?_
  refine h.bind (readVariablesBy_related h htype hvalue) fun vs => ?_
  exact h.lift (readEnd_advances kind name vs)

end Operation

theorem Document.readBy_related (h : Composes R) (htype : R _ type type') (hvalue : R _ value value') :
    R _ (readBy type value) (readBy type' value') := by
  refine h.bind (Operation.readBy_related h htype hvalue) fun op => ?_
  exact h.after finish_advances fun _ => h.pure _

end

/-! ### Readers move on -/

variable {limit levels : Nat} {s : Scanner}

theorem TypeRef.readWithin_advances : Advances (readWithin limit levels) s := by
  induction levels generalizing s with
  | zero => exact .failWith _
  | succ levels ih =>
    rw [readWithin_eq_by]
    exact (readBy_related Advances.composes ⟨rfl, fun _ => ih⟩).2 s

theorem Atom.readWithin_advances : Advances (readWithin limit levels) s := by
  induction levels generalizing s with
  | zero => exact .failWith _
  | succ levels ih =>
    rw [readWithin_eq_by]
    exact (readBy_related Advances.composes ⟨rfl, fun _ => ih⟩).2 s

end QueryDoc
