import QueryDoc.Proofs.Reading.Readers

/-! Reading with a count of the levels that are open. Types and values share the count: each opens a
level before it is read and closes it afterwards, whether or not reading it has stopped with an error.
So whatever is done between two calls on a reader, nothing is left of it but the place where the scanner
stands. -/

namespace QueryDoc

/-- A scanner and the number of levels that are open. Every number there has been since the start is kept,
the latest first. It is an integer, to show it if a level were closed that is not open. -/
structure Reader where
  scanner : Scanner
  depth : Int := 0
  past : List Int := []

def Reader.setDepth (r : Reader) (depth : Int) : Reader :=
  { r with depth, past := depth :: r.past }

abbrev CountM := EStateM ReadError Reader

namespace CountM

variable {α : Type}

/-- What is done to the scanner alone opens and closes no level. -/
def onScanner (act : ReadM α) : CountM α := fun r =>
  match act r.scanner with
  | .ok a s => .ok a { r with scanner := s }
  | .error e s => .error e { r with scanner := s }

instance : MonadLift ReadM CountM where
  monadLift := onScanner

/-- Opens a level, unless there are as many as the limit allows. -/
def enter (limit : Nat) : CountM Unit := fun r =>
  if limit ≤ r.depth then .error (.nestedTooDeep limit r.scanner.nextSpan) r
  else .ok () (r.setDepth (r.depth + 1))

def leave : CountM Unit := fun r =>
  .ok () (r.setDepth (r.depth - 1))

/-- Reads inside a level of its own, which is closed however reading ends. -/
def within (limit : Nat) (act : CountM α) : CountM α := do
  enter limit
  try act finally leave

/-- Reads what may have more of its kind inside it. No turn is missing as long as there are more turns
than levels to open: it is the count that ends the recursion. -/
def nested (limit : Nat) (body : CountM α → CountM α) : (turns : Nat) → CountM α
  | 0 => (ReadM.failWith fun s => .nestedTooDeep limit s.nextSpan : ReadM α)
  | turns + 1 => within limit (body (nested limit body turns))

variable {limit : Nat} {r t : Reader} {act : CountM α} {v : Except ReadError α}

theorem outcome_finally_leave (h : outcome act r = (v, t)) :
    outcome (try act finally leave) r = (v, t.setDepth (t.depth - 1)) := by
  unfold outcome at h ⊢
  cases hrun : act r with
  | ok a u | error e u =>
    rw [hrun] at h
    cases h
    simp [hrun, tryFinally, MonadFinally.tryFinally', Functor.map, EStateM.map, leave]

theorem outcome_within_of_le (h : limit ≤ r.depth) (act : CountM α) :
    outcome (within limit act) r = (.error (.nestedTooDeep limit r.scanner.nextSpan), r) := by
  have henter : enter limit r = .error (.nestedTooDeep limit r.scanner.nextSpan) r := if_pos h
  rw [within, outcome_bind, outcome, henter]

theorem outcome_within_of_lt (h : r.depth < limit)
    (hact : outcome act (r.setDepth (r.depth + 1)) = (v, t)) :
    outcome (within limit act) r = (v, t.setDepth (t.depth - 1)) := by
  have henter : enter limit r = .ok () (r.setDepth (r.depth + 1)) := if_neg (by omega)
  rw [within, outcome_bind, outcome, henter]
  exact outcome_finally_leave hact

end CountM

open ReadM

/-- With `d` levels open the counted action comes to the same as the other one, and leaves the scanner
at the same place, which is ahead. It leaves `d` levels open, and the numbers there have been in between
respect the limit and do not depend on what has been before. -/
def Tracks {α : Type} (limit d : Nat) (counted : CountM α) (act : ReadM α) : Prop :=
  ∀ s, ∃ v n counts, outcome act s = (v, s.advanceBy n) ∧
    (∀ k ∈ counts, 0 ≤ k ∧ k ≤ (limit : Int)) ∧
    ∀ past, outcome counted ⟨s, d, past⟩ = (v, ⟨s.advanceBy n, d, counts ++ past⟩)

namespace Tracks

variable {α β : Type} {limit d : Nat} {counted : CountM α} {act : ReadM α} {f : α → CountM β}
  {g : α → ReadM β}

theorem pure (a : α) : Tracks limit d (pure a) (pure a) :=
  fun _ => ⟨.ok a, 0, [], rfl, nofun, fun _ => rfl⟩

theorem lift (h : ∀ {s}, Advances act s) : Tracks limit d (liftM act) (liftM act) := by
  intro s
  obtain ⟨n, hn⟩ := @h s
  refine ⟨(outcome act s).1, n, [], Prod.ext rfl hn, nofun, fun past => ?_⟩
  rw [← hn]
  change outcome (CountM.onScanner act) ⟨s, d, past⟩ = _
  unfold outcome CountM.onScanner
  cases act s <;> rfl

theorem bind (h : Tracks limit d counted act) (hf : ∀ a, Tracks limit d (f a) (g a)) :
    Tracks limit d (counted >>= f) (act >>= g) := by
  intro s
  obtain ⟨v, n, counts, hact, hcounts, hcounted⟩ := h s
  cases v with
  | error e =>
    refine ⟨.error e, n, counts, ?_, hcounts, fun past => ?_⟩
    · rw [outcome_bind, hact]
    · rw [outcome_bind, hcounted]
  | ok a =>
    obtain ⟨w, k, more, hact', hmore, hcounted'⟩ := hf a (s.advanceBy n)
    refine ⟨w, n + k, more ++ counts, ?_, ?_, fun past => ?_⟩
    · rw [outcome_bind, hact, Scanner.advanceBy_add]
      exact hact'
    · exact fun i hi => (List.mem_append.mp hi).elim (hmore i) (hcounts i)
    · rw [outcome_bind, hcounted, Scanner.advanceBy_add, List.append_assoc]
      exact hcounted' (counts ++ past)

theorem composes : Composes (m := CountM) (n := ReadM) fun _ => Tracks limit d :=
  ⟨lift, pure, bind⟩

/-- The level is closed again, whatever comes of reading inside it. -/
theorem within_of_lt (hd : d < limit) (h : Tracks limit (d + 1) counted act) :
    Tracks limit d (CountM.within limit counted) act := by
  intro s
  obtain ⟨v, n, counts, hact, hcounts, hcounted⟩ := h s
  refine ⟨v, n, (d : Int) :: (counts ++ [(d + 1 : Int)]), hact, ?_, fun past => ?_⟩
  · simp only [List.mem_cons, List.mem_append, List.not_mem_nil, or_false]
    rintro k (rfl | hk | rfl)
    · omega
    · exact hcounts k hk
    · omega
  · have hinside := CountM.outcome_within_of_lt (r := ⟨s, d, past⟩) (by simpa using hd)
      (hcounted ((d + 1) :: past))
    rw [hinside]
    simp [Reader.setDepth]

theorem within_full : Tracks limit limit (CountM.within limit counted)
    (ReadM.failWith fun s => .nestedTooDeep limit s.nextSpan) :=
  fun _ => ⟨.error _, 0, [], rfl, nofun, fun _ => CountM.outcome_within_of_le (Int.le_refl _) _⟩

/-- Counting the levels that are open is as good as counting down those that are left. -/
theorem nested {body : CountM α → CountM α} (countdown : Nat → ReadM α)
    (hzero : countdown 0 = ReadM.failWith fun s => .nestedTooDeep limit s.nextSpan)
    (hbody : ∀ {d counted levels}, Tracks limit d counted (countdown levels) →
      Tracks limit d (body counted) (countdown (levels + 1)))
    {levels turns : Nat} (hlevels : d + levels = limit) (hturns : levels < turns) :
    Tracks limit d (CountM.nested limit body turns) (countdown levels) := by
  induction levels generalizing d turns with
  | zero =>
    obtain ⟨turns, rfl⟩ := Nat.exists_eq_add_of_lt hturns
    obtain rfl : d = limit := hlevels
    rw [hzero]
    exact within_full
  | succ levels ih =>
    obtain ⟨turns, rfl⟩ := Nat.exists_eq_add_of_lt hturns
    exact within_of_lt (by omega) (hbody (ih (by omega) (by omega)))

end Tracks

/-- Reads a type of at most `limit` levels, which are counted. -/
def TypeRef.readCounted (limit : Nat) : CountM TypeRef :=
  .nested limit readBy (limit + 1)

/-- Reads a value of at most `limit` levels, which are counted. -/
def Atom.readCounted (limit : Nat) : CountM Atom :=
  .nested limit readBy (limit + 1)

theorem TypeRef.readCounted_tracks (limit : Nat) :
    Tracks limit 0 (readCounted limit) (read limit) :=
  .nested (readWithin limit) rfl (readBy_related Tracks.composes) (Nat.zero_add limit)
    (Nat.lt_succ_self limit)

theorem Atom.readCounted_tracks (limit : Nat) : Tracks limit 0 (readCounted limit) (read limit) := by
  refine .nested (readWithin limit) rfl (fun h => ?_) (Nat.zero_add limit) (Nat.lt_succ_self limit)
  rw [readWithin_eq_by]
  exact readBy_related Tracks.composes h

end QueryDoc
