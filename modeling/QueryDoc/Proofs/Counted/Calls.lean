import QueryDoc.Proofs.Counted.Basic
import QueryDoc.Proofs.Source.Position

/-! A reader is used by calls, one after another, which may go on after an error. Nothing but the place
where the scanner stands decides what comes of a call. -/

namespace QueryDoc

inductive Call
  | peek (expected : String)
  | peek?
  | literal (text : String)
  | keyword (word : String)
  | name
  | name?
  | type
  | value
  | variableDefinition
  | operation
  | document
  | finish

namespace Call

abbrev Answer : Call → Type
  | peek _ => Char
  | peek? => Option Char
  | literal _ | keyword _ => Span
  | name => String
  | name? => Option String
  | type => TypeRef
  | value => Atom
  | variableDefinition => VariableDefinition
  | operation => Operation
  | document => Document
  | finish => Unit

/-- What a call does to a scanner. -/
def act (limit : Nat) : (call : Call) → ReadM call.Answer
  | peek expected => Token.peek expected
  | peek? => Token.peek?
  | literal text => Token.literal text
  | keyword word => Token.keyword word
  | name => Token.name
  | name? => Token.name?
  | type => TypeRef.read limit
  | value => Atom.read limit
  | variableDefinition => VariableDefinition.read limit
  | operation => Operation.read limit
  | document => Document.read limit
  | finish => Token.finish

/-- What a call does to a reader that counts the levels that are open. -/
def counted (limit : Nat) : (call : Call) → CountM call.Answer
  | peek expected => Token.peek expected
  | peek? => Token.peek?
  | literal text => Token.literal text
  | keyword word => Token.keyword word
  | name => Token.name
  | name? => Token.name?
  | type => TypeRef.readCounted limit
  | value => Atom.readCounted limit
  | variableDefinition => VariableDefinition.readBy (TypeRef.readCounted limit) (Atom.readCounted limit)
  | operation => Operation.readBy (TypeRef.readCounted limit) (Atom.readCounted limit)
  | document => Document.readBy (TypeRef.readCounted limit) (Atom.readCounted limit)
  | finish => Token.finish

theorem counted_tracks (limit : Nat) (call : Call) :
    Tracks limit 0 (call.counted limit) (call.act limit) := by
  have htype := TypeRef.readCounted_tracks limit
  have hvalue := Atom.readCounted_tracks limit
  cases call with
  | peek expected => exact .lift (Token.peek_advances expected)
  | peek? => exact .lift Token.peek?_advances
  | literal text => exact .lift (Token.literal_advances text)
  | keyword word => exact .lift (Token.keyword_advances word)
  | name => exact .lift Token.name_advances
  | name? => exact .lift Token.name?_advances
  | type => exact htype
  | value => exact hvalue
  | variableDefinition =>
    rw [act, VariableDefinition.read_eq_by]
    exact VariableDefinition.readBy_related Tracks.composes htype hvalue
  | operation =>
    rw [act, Operation.read_eq_by]
    exact Operation.readBy_related Tracks.composes htype hvalue
  | document =>
    rw [act, Document.read_eq_by]
    exact Document.readBy_related Tracks.composes htype hvalue
  | finish => exact .lift Token.finish_advances

end Call

namespace Reader

/-- Makes calls one after another, whether or not they stop with an error. -/
def calls (limit : Nat) (r : Reader) (earlier : List Call) : Reader :=
  earlier.foldl (fun r call => (outcome (call.counted limit) r).2) r

/-- No level is open between two calls. -/
theorem calls_closed (limit : Nat) (s : Scanner) (past : List Int) (earlier : List Call) :
    ∃ n counts, calls limit ⟨s, 0, past⟩ earlier = ⟨s.advanceBy n, 0, counts ++ past⟩ ∧
      ∀ k ∈ counts, 0 ≤ k ∧ k ≤ (limit : Int) := by
  induction earlier generalizing s past with
  | nil => exact ⟨0, [], rfl, nofun⟩
  | cons call earlier ih =>
    obtain ⟨v, n, counts, -, hcounts, hcounted⟩ := call.counted_tracks limit s
    obtain ⟨k, more, hcalls, hmore⟩ := ih (s.advanceBy n) (counts ++ past)
    refine ⟨n + k, more ++ counts, ?_, ?_⟩
    · have hfirst : (outcome (call.counted limit) ⟨s, 0, past⟩).2 = ⟨s.advanceBy n, 0, counts ++ past⟩ :=
        congrArg Prod.snd (hcounted past)
      rw [calls, List.foldl_cons, hfirst, Scanner.advanceBy_add, List.append_assoc]
      exact hcalls
    · exact fun i hi => (List.mem_append.mp hi).elim (hmore i) (hcounts i)

/-- Whatever calls there have been, a call closes all levels that it opens, opens no more than the limit
allows, and closes none that is not open. It comes to the same as without a count, and to the same as on a
new reader that has been moved to the same offset. -/
theorem call_forgets_history (source : List Char) (options : ReadOptions) (earlier : List Call)
    (call : Call) :
    let start := Scanner.start source options.file
    let r := calls options.depth ⟨start, 0, []⟩ earlier
    ∃ v s counts, r.depth = 0 ∧
      outcome (call.counted options.depth) r = (v, ⟨s, 0, counts ++ r.past⟩) ∧
      (∀ k ∈ counts ++ r.past, 0 ≤ k ∧ k ≤ (options.depth : Int)) ∧
      outcome (call.act options.depth) r.scanner = (v, s) ∧
      (∃ n, start.advanceBy n = r.scanner) ∧
      ∀ n, (start.advanceBy n).position.offset = r.scanner.position.offset →
        outcome (call.counted options.depth) ⟨start.advanceBy n, 0, []⟩ = (v, ⟨s, 0, counts⟩) := by
  intro start r
  obtain ⟨n, past, hr, hpast⟩ := calls_closed options.depth start [] earlier
  rw [List.append_nil] at hr
  obtain ⟨v, k, counts, hact, hcounts, hcounted⟩ := call.counted_tracks options.depth (start.advanceBy n)
  have hreader : r = ⟨start.advanceBy n, 0, past⟩ := hr
  rw [hreader]
  refine ⟨v, (start.advanceBy n).advanceBy k, counts, rfl, hcounted past, ?_, hact, ⟨n, rfl⟩, ?_⟩
  · exact fun i hi => (List.mem_append.mp hi).elim (hcounts i) (hpast i)
  · intro m hm
    rw [Scanner.advanceBy_eq_of_offset hm]
    have hnew := hcounted []
    rwa [List.append_nil] at hnew

theorem call_forgets_history_after_errors :
    let start := Scanner.start "[[a:".toList
    let r := calls 1 ⟨start, 0, []⟩ [.type, .value]
    r.past = [0, 1, 0, 1] ∧ (start.advanceBy 2).position.offset = r.scanner.position.offset ∧
      (outcome (Call.counted 1 .type) r).1 = .ok (.named "a") ∧
      (outcome (Call.counted 1 .type) r).1 =
        (outcome (Call.counted 1 .type) ⟨start.advanceBy 2, 0, []⟩).1 := by
  obtain ⟨v, s, counts, -, hr, -, -, -, hnew⟩ :=
    call_forgets_history "[[a:".toList { depth := 1 } [.type, .value] .type
  have hanswer := congrArg Prod.fst hr
  refine ⟨by decide, by decide, rfl, ?_⟩
  rw [hnew 2 (by decide)]
  exact hanswer

end Reader

end QueryDoc
