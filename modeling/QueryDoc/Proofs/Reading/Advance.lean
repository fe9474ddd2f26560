import QueryDoc.Document
import QueryDoc.Proofs.Reading.Basic

/-! Whatever comes of reading, an action has done nothing to the scanner but to pass over characters. -/

namespace QueryDoc

/-- What an action answers, or the error with which it stops, and where it leaves off. -/
def outcome {σ α : Type} (act : EStateM ReadError σ α) (s : σ) : Except ReadError α × σ :=
  match act s with
  | .ok a s => (.ok a, s)
  | .error e s => (.error e, s)

theorem outcome_bind {σ α β : Type} (act : EStateM ReadError σ α) (f : α → EStateM ReadError σ β)
    (s : σ) : outcome (act >>= f) s =
      match outcome act s with
      | (.ok a, s) => outcome (f a) s
      | (.error e, s) => (.error e, s) := by
  change outcome (EStateM.bind act f) s = _
  unfold outcome EStateM.bind
  cases act s <;> rfl

namespace ReadM

/-- The action passes over some number of characters, also when it stops with an error. -/
def Advances {α : Type} (act : ReadM α) (s : Scanner) : Prop :=
  ∃ n, (outcome act s).2 = s.advanceBy n

namespace Advances

variable {α β : Type} {act : ReadM α} {f : α → ReadM β} {s : Scanner}

theorem of_stays (h : (outcome act s).2 = s) : Advances act s :=
  ⟨0, h⟩

theorem pure (a : α) : Advances (pure a) s :=
  of_stays rfl

theorem failWith (error : Scanner → ReadError) : Advances (failWith error : ReadM α) s :=
  of_stays rfl

theorem bind (h : Advances act s) (hf : ∀ a t, Advances (f a) t) : Advances (act >>= f) s := by
  obtain ⟨n, hn⟩ := h
  rw [Advances, outcome_bind]
  rcases hact : outcome act s with ⟨v, t⟩
  obtain rfl : t = s.advanceBy n := by rw [← hn, hact]
  cases v with
  | error e => exact ⟨n, rfl⟩
  | ok a =>
    obtain ⟨k, hk⟩ := hf a (s.advanceBy n)
    exact ⟨n + k, by rw [hk, Scanner.advanceBy_add]⟩

theorem withHelp {message : String} (h : Advances act s) : Advances (withHelp message act) s := by
  obtain ⟨n, hn⟩ := h
  refine ⟨n, ?_⟩
  rw [← hn]
  unfold outcome ReadM.withHelp
  cases act s <;> rfl

theorem exists_of_ok {a : α} {t : Scanner} (h : Advances act s) (hact : act s = .ok a t) :
    ∃ n, t = s.advanceBy n := by
  obtain ⟨n, hn⟩ := h
  rw [outcome, hact] at hn
  exact ⟨n, hn⟩

theorem length_le {a : α} {t : Scanner} (h : Advances act s) (hact : act s = .ok a t) :
    t.rest.length ≤ s.rest.length := by
  obtain ⟨n, rfl⟩ := h.exists_of_ok hact
  rw [Scanner.rest_advanceBy, List.length_drop]
  exact Nat.sub_le _ _

/-- After a look at the scanner only what is done from there matters. -/
theorem get {f : Scanner → ReadM β} (h : Advances (f s) s) : Advances (get >>= f) s :=
  h

theorem modify {g : Scanner → Scanner} (h : ∃ n, g s = s.advanceBy n) : Advances (modify g) s :=
  h

/-- Setting the scanner to a place ahead passes over the characters before that. -/
theorem set {t : Scanner} (ht : ∃ n, t = s.advanceBy n) {f : PUnit → ReadM β}
    (hf : ∀ t, Advances (f ⟨⟩) t) : Advances (set t >>= f) s := by
  have hset : Advances (MonadStateOf.set t : ReadM PUnit) s := ht
  exact hset.bind fun _ => hf

end Advances

end ReadM

open ReadM

variable {s : Scanner}

namespace Token

theorem peek?_advances : Advances peek? s :=
  .bind (.modify ⟨_, rfl⟩) fun _ _ => .get (.pure _)

theorem peek_advances (expected : String) : Advances (peek expected) s := by
  refine .bind peek?_advances fun c t => ?_
  cases c with
  | none => exact .failWith _
  | some c => exact .pure c

theorem peekInside_advances (delimiter : String) (opening : Span) :
    Advances (peekInside delimiter opening) s := by
  refine .bind peek?_advances fun c t => ?_
  cases c with
  | none => exact .failWith _
  | some c => exact .pure c

theorem passOver_advances (text : String) (cs : List Char) : Advances (passOver text cs) s := by
  induction cs generalizing s with
  | nil => exact .pure _
  | cons c cs ih =>
    refine .get ?_
    split
    · exact .bind (.modify ⟨1, rfl⟩) fun _ _ => ih
    · exact .failWith _

theorem literal_advances (text : String) : Advances (literal text) s :=
  .bind (.modify ⟨_, rfl⟩) fun _ _ =>
    .get (.bind (passOver_advances text _) fun _ _ => .get (.pure _))

theorem keyword_advances (word : String) : Advances (keyword word) s := by
  refine .bind (.modify ⟨_, rfl⟩) fun _ t => .get ?_
  cases t.name? with
  | none => exact .failWith _
  | some found =>
    dsimp only
    split
    · exact literal_advances word
    · exact .set ⟨_, rfl⟩ fun _ => .failWith _

theorem name?_advances : Advances name? s := by
  refine .bind peek?_advances fun c t => ?_
  cases c with
  | none => exact .pure _
  | some c =>
    dsimp only
    split
    · exact .get (.set ⟨_, rfl⟩ fun _ => .pure _)
    · exact .pure _

theorem name_advances : Advances name s := by
  refine .bind (peek_advances _) fun _ _ => .bind name?_advances fun n _ => ?_
  cases n with
  | none => exact .failWith _
  | some n => exact .pure n

theorem string_advances : Advances string s := by
  refine .bind (literal_advances _) fun opening t => .get ?_
  cases h : t.until? 34 with
  | none => exact .failWith _
  | some found =>
    obtain ⟨contents, u⟩ := found
    obtain ⟨bytes, -, hu⟩ := Option.map_eq_some_iff.mp h
    obtain ⟨-, rfl⟩ := Prod.mk.inj hu
    refine .set ⟨charsCovering bytes t.rest + 1, ?_⟩ fun _ => .pure _
    rw [Scanner.advanceBy_add]
    rfl

theorem finish_advances : Advances finish s := by
  refine .bind peek?_advances fun c t => ?_
  cases c with
  | none => exact .pure _
  | some c => exact .failWith _

end Token

theorem Atom.readNumber_advances : Advances readNumber s := by
  refine .get (.set ⟨_, rfl⟩ fun t => ?_)
  split
  · exact .pure _
  · exact .failWith _

theorem Atom.readKeyword_advances (word : String) (value : Atom) :
    Advances (readKeyword word value) s :=
  .bind (.withHelp (Token.keyword_advances word)) fun _ _ => .pure value

namespace SelectionSet

theorem skipBody_advances (opening : Span) (turns depth : Nat) :
    Advances (skipBody opening turns depth) s := by
  induction turns generalizing depth s with
  | zero => exact .failWith _
  | succ turns ih =>
    refine .get ?_
    split
    · exact .failWith _
    · exact .bind (.modify ⟨1, rfl⟩) fun _ _ => ih _
    · cases depth with
      | zero => exact .pure _
      | succ depth => exact .bind (.modify ⟨1, rfl⟩) fun _ _ => ih _
    · exact .bind Token.string_advances fun _ _ => ih _
    · exact .bind (.modify ⟨_, rfl⟩) fun _ _ => ih _
    · exact .bind (.modify ⟨1, rfl⟩) fun _ _ => ih _

theorem read_advances : Advances read s :=
  .bind (Token.literal_advances _) fun _ _ => .get <|
    .bind (skipBody_advances _ _ _) fun _ _ => .get <|
      .bind (Token.literal_advances _) fun _ _ => .pure _

end SelectionSet

theorem Operation.readKind_advances : Advances readKind s := by
  refine .get ?_
  cases s.name? with
  | none => exact .pure _
  | some word =>
    dsimp only
    split
    · exact .set ⟨_, rfl⟩ fun _ => .failWith _
    · cases OperationKind.ofKeyword? (String.ofList word) with
      | none => exact .pure _
      | some kind => exact .bind (Token.keyword_advances _) fun _ _ => .pure kind

theorem Document.finish_advances : Advances finish s := by
  refine .bind Token.peek?_advances fun c t => ?_
  cases c with
  | none => exact .pure _
  | some c =>
    dsimp only
    split <;> exact .failWith _

end QueryDoc
