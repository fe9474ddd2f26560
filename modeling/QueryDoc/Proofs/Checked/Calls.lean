import QueryDoc.Proofs.Checked.Operation
import QueryDoc.Proofs.Counted.Calls

/-! Calls on a reader that works by byte offsets. Whatever calls there have been, and whatever they have
been refused for, the next one finds everything that it relies on. -/

namespace QueryDoc

namespace Call

/-- What a call does to a cursor. -/
def checked (limit : Nat) : (call : Call) → CursorM call.Answer
  | peek expected => .peek expected
  | peek? => .peek?
  | literal text => .literal text
  | keyword word => .keyword word
  | name => .name
  | name? => .name?
  | type => TypeRef.readChecked limit
  | value => Atom.readChecked limit
  | variableDefinition => VariableDefinition.readChecked limit
  | operation => Operation.readChecked limit
  | document => Document.readChecked limit
  | finish => .finish

theorem checked_follows (limit : Nat) (call : Call) {source : List Char} {s : Scanner} :
    Follows source 0 (call.checked limit) (call.act limit) s := by
  cases call with
  | peek expected => exact .peek expected
  | peek? => exact .peek?
  | literal text => exact .literal text
  | keyword word => exact .keyword word
  | name => exact .name
  | name? => exact .name?
  | type => exact TypeRef.readChecked_follows limit
  | value => exact Atom.readChecked_follows limit
  | variableDefinition => exact VariableDefinition.readChecked_follows limit
  | operation => exact Operation.readChecked_follows limit
  | document => exact Document.readChecked_follows limit
  | finish => exact .finish

end Call

/-- Where an action leaves off, whether or not it stops with an error. -/
def leftAt {ε σ α : Type} (act : EStateM ε σ α) (s : σ) : σ :=
  match act s with
  | .ok _ s => s
  | .error _ s => s

/-- Makes calls one after another, whether or not they are refused. -/
def Scanner.calls (limit : Nat) (s : Scanner) (earlier : List Call) : Scanner :=
  earlier.foldl (fun s call => leftAt (call.act limit) s) s

namespace Cursor

def calls (limit : Nat) (c : Cursor) (earlier : List Call) : Cursor :=
  earlier.foldl (fun c call => leftAt (call.checked limit) c) c

theorem calls_cursor (limit : Nat) {source : List Char} (earlier : List Call) {s : Scanner}
    (hs : s.StandsIn source) :
    calls limit (s.cursor source 0) earlier = (s.calls limit earlier).cursor source 0 ∧
      (s.calls limit earlier).StandsIn source := by
  induction earlier generalizing s with
  | nil => exact ⟨rfl, hs⟩
  | cons call earlier ih =>
    rw [calls, Scanner.calls, List.foldl_cons, List.foldl_cons, leftAt, leftAt]
    have hmirrors := call.checked_follows limit hs
    generalize call.checked limit (s.cursor source 0) = r at hmirrors ⊢
    generalize call.act limit s = r' at hmirrors ⊢
    cases hmirrors with
    | ok ht => exact ih ht
    | error ht => exact ih ht

/-- Whatever calls there have been on a reader, a call cuts no text off the boundaries of characters, closes
no level and no brace that is not open, and is not refused where it reads what it has looked at. It answers
or is refused as on a scanner, at the same place. -/
theorem call_has_no_defect (source : List Char) (options : ReadOptions) (earlier : List Call)
    (call : Call) :
    let s := (Scanner.start source options.file).calls options.depth earlier
    let c := calls options.depth { source, file := options.file } earlier
    (∀ d c', call.checked options.depth c ≠ .error (.defect d) c') ∧
      Mirrors source 0 (call.checked options.depth c) (call.act options.depth s) ∧
      c = s.cursor source 0 := by
  intro s c
  obtain ⟨hc, hs⟩ := calls_cursor options.depth earlier (Scanner.standsIn_start source options.file)
  have hmirrors := call.checked_follows options.depth hs
  have hcursor : c = s.cursor source 0 := hc
  rw [hcursor]
  refine ⟨fun d c' hdefect => ?_, hmirrors, rfl⟩
  rw [hdefect] at hmirrors
  cases hmirrors

end Cursor

end QueryDoc
