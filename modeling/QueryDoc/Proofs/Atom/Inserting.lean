import QueryDoc.Keyed
import QueryDoc.Proofs.Atom.Reading

/-! Reading objects into maps. Beside the places of the keys, the fields read so far are kept in a map
that keeps the order of its keys. A key that was read before is refused before its value is read, so
that it does not matter what the map does with keys it has. -/

namespace QueryDoc

open ReadM

/-- A new key comes last. What is done with a key that is there already is left open. -/
def Keyed.PutsNewLast {α : Type} (put : String → α → List (String × α) → List (String × α)) : Prop :=
  ∀ key a entries, key ∉ entries.map Prod.fst → put key a entries = entries ++ [(key, a)]

theorem Keyed.putsNewLast_insert {α : Type} : PutsNewLast (@insert α) := by
  intro key a entries hnew
  induction entries with
  | nil => rfl
  | cons entry entries ih =>
    rw [List.map_cons, List.mem_cons, not_or] at hnew
    rw [insert, if_neg (Ne.symm hnew.1), ih hnew.2, List.cons_append]

namespace Atom

variable (put : String → Atom → List (String × Atom) → List (String × Atom))

def readFieldsInto (value : ReadM Atom) (opening : Span) :
    (turns : Nat) → (seen : List (String × Span)) → (fields : List (String × Atom)) →
      ReadM (List (String × Atom))
  | 0, _, _ => failWith (·.unclosed "\x7b" opening)
  | turns + 1, seen, fields => do
    if (← Token.peekInside "\x7b" opening) = '}' then return fields
    else
      let start ← get
      let key ← Token.name
      let span := (← get).spanFrom start.position
      match seen.lookup key with
      | some first => failWith fun _ => .duplicateField key span first
      | none =>
        let _ ← Token.literal ":"
        let a ← value
        readFieldsInto value opening turns ((key, span) :: seen) (put key a fields)

def readObjectInto (value : ReadM Atom) : ReadM Atom := do
  let opening ← Token.literal "\x7b"
  let fields ← readFieldsInto put value opening ((← get).rest.length + 1) [] []
  let _ ← Token.literal "\x7d"
  return object fields

/-- Reads a value where every object in it is read into a map. -/
def readWithinInto (limit : Nat) : (levels : Nat) → ReadM Atom
  | 0 => failWith fun s => .nestedTooDeep limit s.nextSpan
  | levels + 1 => do
    let c ← Token.peek "value"
    if c = '{' then readObjectInto put (readWithinInto limit levels)
    else readFrom (readWithinInto limit levels) c

def parseInto (source : List Char) (options : ReadOptions := {}) : Except ReadError Atom :=
  ReadM.onText (do let a ← readWithinInto put options.depth options.depth; Token.finish; return a)
    source options.file

variable {put}

theorem readFieldsInto_eq (hput : Keyed.PutsNewLast put) (value : ReadM Atom) (opening : Span)
    (turns : Nat) {seen : List (String × Span)} {fields : List (String × Atom)}
    (hseen : ∀ key ∈ fields.map Prod.fst, seen.lookup key ≠ none) :
    readFieldsInto put value opening turns seen fields =
      (readFields value opening turns seen >>= fun rest => pure (fields ++ rest)) := by
  induction turns generalizing seen fields with
  | zero => rfl
  | succ turns ih =>
    simp only [readFieldsInto, readFields, bind_assoc]
    refine bind_congr fun c => ?_
    split
    · rw [pure_bind, List.append_nil]
    simp only [bind_assoc]
    refine bind_congr fun start => bind_congr fun key => bind_congr fun now => ?_
    cases hkey : seen.lookup key with
    | some first => rfl
    | none =>
      have hnew : key ∉ fields.map Prod.fst := fun hm => hseen key hm hkey
      simp only [bind_assoc, pure_bind]
      refine bind_congr fun _ => bind_congr fun a => ?_
      have hkeys : ∀ k ∈ (put key a fields).map Prod.fst,
          ((key, now.spanFrom start.position) :: seen).lookup k ≠ none := by
        intro k hk
        rw [hput key a fields hnew, List.map_append, List.mem_append] at hk
        rw [List.lookup_cons]
        cases hbeq : k == key with
        | true => exact Option.some_ne_none _
        | false =>
          refine hseen k (hk.resolve_right fun hm => ?_)
          exact beq_eq_false_iff_ne.mp hbeq (List.mem_singleton.mp hm)
      rw [ih hkeys, hput key a fields hnew]
      simp only [List.append_assoc, List.singleton_append]

theorem readObjectInto_eq (hput : Keyed.PutsNewLast put) (value : ReadM Atom) :
    readObjectInto put value = readObject value := by
  refine bind_congr fun opening => bind_congr fun s => ?_
  rw [readFieldsInto_eq hput value opening _ (by simp)]
  simp only [List.nil_append, bind_pure]

/-- No field is ever put under a key that is there already. -/
theorem readWithinInto_eq (hput : Keyed.PutsNewLast put) (limit levels : Nat) :
    readWithinInto put limit levels = readWithin limit levels := by
  induction levels with
  | zero => rfl
  | succ levels ih =>
    rw [readWithinInto, readWithin_succ, ih, readObjectInto_eq hput]
    refine bind_congr fun c => ?_
    split
    · next hc =>
      subst hc
      rfl
    · rfl

theorem parseInto_eq (hput : Keyed.PutsNewLast put) (source : List Char) (options : ReadOptions) :
    parseInto put source options = parse source options := by
  rw [parseInto, readWithinInto_eq hput]
  rfl

end Atom

end QueryDoc
