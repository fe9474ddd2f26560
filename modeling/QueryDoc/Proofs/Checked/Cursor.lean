import QueryDoc.Proofs.Reading.Advance
import QueryDoc.Proofs.Source.ByteSearch
import QueryDoc.Proofs.Source.Ignored

/-! Reading a source by byte offsets. A cursor keeps the whole source and an offset into it, and whatever
it looks at is cut out of the source between two bytes. What can go wrong that is no fault of the text is
told apart from the errors that the text gives rise to. -/

namespace QueryDoc

open Text

/-- What would be a mistake of the reader, whatever it reads. -/
inductive Defect where
  /-- A text is cut at a byte that is no boundary of a character, or backwards, or past its end. -/
  | cut
  /-- A level is closed, or a brace, that has not been opened. -/
  | level
  | brace
  /-- What has just been looked at is not there any more. -/
  | recheck
  | assertion
  /-- A loop goes on after as many turns as there are characters. -/
  | endless
deriving DecidableEq, Repr

inductive Stop where
  | defect (d : Defect)
  | refused (e : ReadError)
deriving DecidableEq, Repr

structure Cursor where
  source : List Char
  position : Position := {}
  afterReturn : Bool := false
  file : Option String := none
  levels : Nat := 0

abbrev CursorM := EStateM Stop Cursor

namespace CursorM

variable {α : Type}

def fail (d : Defect) : CursorM α :=
  throw (.defect d)

def remaining : CursorM (List Char) := do
  let c ← get
  match dropBytes? c.position.offset c.source with
  | some rest => return rest
  | none => fail .cut

/-- The text between two offsets. -/
def slice (start stop : Nat) : CursorM (List Char) := do
  match Span.slice? { start := { offset := start }, stop := { offset := stop } } (← get).source with
  | some text => return text
  | none => fail .cut

def peekChar : CursorM (Option Char) :=
  return (← remaining).head?

def consume : CursorM Unit := do
  match ← peekChar with
  | none => return ()
  | some ch =>
    modify fun c =>
      { c with position := c.position.after c.afterReturn ch, afterReturn := ch == '\r' }

def passWhile (p : Char → Bool) : (turns : Nat) → CursorM Unit
  | 0 => fail .endless
  | turns + 1 => do
    match ← peekChar with
    | none => return ()
    | some ch =>
      if p ch then
        consume
        passWhile p turns
      else return ()

def consumeWhile (p : Char → Bool) : CursorM (List Char) := do
  let start := (← get).position.offset
  passWhile p ((← remaining).length + 1)
  slice start (← get).position.offset

def passUpTo (stop : Nat) : (turns : Nat) → CursorM Unit
  | 0 => fail .endless
  | turns + 1 => do
    if (← get).position.offset < stop then
      consume
      passUpTo stop turns
    else return ()

/-- The text before the next occurrence of an ASCII byte, which is looked for in the encoded text. -/
def consumeUntil (byte : UInt8) : CursorM (Option (List Char)) := do
  let rest ← remaining
  if 128 ≤ byte.toNat then fail .assertion
  else
    match (Utf8.encode rest).findIdx? (· == byte) with
    | none => return none
    | some length =>
      let start := (← get).position.offset
      passUpTo (start + length) (rest.length + 1)
      return some (← slice start (start + length))

def peekName : CursorM (Option (List Char)) := do
  let rest ← remaining
  match rest.head? with
  | none => return none
  | some first =>
    if isNameStart first then
      match takeBytes? (byteLength (rest.takeWhile isNameContinue)) rest with
      | some name => return some name
      | none => fail .cut
    else return none

def skipComment : CursorM Unit := do
  if (← peekChar) = some '#' then passWhile (!isLineEnd ·) ((← remaining).length + 1)
  else fail .assertion

def passIgnored : (turns : Nat) → CursorM Unit
  | 0 => fail .endless
  | turns + 1 => do
    match ← peekChar with
    | none => return ()
    | some ch =>
      if isSpace ch || ch == ',' then
        consume
        passIgnored turns
      else if ch == '#' then
        skipComment
        passIgnored turns
      else return ()

def skipIgnored : CursorM Unit := do
  passIgnored ((← remaining).length + 1)

/-- All that an error may tell about the place where the cursor stands. -/
def scanner : CursorM Scanner := do
  let rest ← remaining
  let c ← get
  return { rest, position := c.position, afterReturn := c.afterReturn, file := c.file }

def refuse (error : Scanner → ReadError) : CursorM α := do
  throw (.refused (error (← scanner)))

def withHelp (message : String) (act : CursorM α) : CursorM α := fun c =>
  match act c with
  | .error (.refused e) c => .error (.refused (e.addHelp message)) c
  | result => result

/-- The action reads what has been looked at already, so that it must not be refused. -/
def recheck (act : CursorM α) : CursorM α := fun c =>
  match act c with
  | .error (.refused _) c => .error (.defect .recheck) c
  | result => result

def enter (limit : Nat) : CursorM Unit := do
  if limit ≤ (← get).levels then refuse fun s => .nestedTooDeep limit s.nextSpan
  else modify fun c => { c with levels := c.levels + 1 }

def leave : CursorM Unit := do
  match (← get).levels with
  | 0 => fail .level
  | levels + 1 => modify fun c => { c with levels }

def within (limit : Nat) (act : CursorM α) : CursorM α := do
  enter limit
  try act finally leave

/-- Reads what may have more of its kind inside it. There are more turns than levels to open. -/
def nested (limit : Nat) (body : CursorM α → CursorM α) : (turns : Nat) → CursorM α
  | 0 => fail .endless
  | turns + 1 => within limit (body (nested limit body turns))

end CursorM

namespace Scanner

/-- The cursor at the place of a scanner. -/
def cursor (s : Scanner) (source : List Char) (levels : Nat) : Cursor :=
  { source, position := s.position, afterReturn := s.afterReturn, file := s.file, levels }

/-- The scanner stands at some place of the source. -/
def StandsIn (source : List Char) (s : Scanner) : Prop :=
  ∃ passed, s.StandsAfter source passed

theorem standsIn_start (source : List Char) (file : Option String) :
    (start source file).StandsIn source :=
  ⟨[], standsAfter_start source file⟩

theorem StandsIn.advanceBy {source : List Char} {s : Scanner} (h : s.StandsIn source) (n : Nat) :
    (s.advanceBy n).StandsIn source := by
  obtain ⟨passed, h⟩ := h
  obtain ⟨more, hmore⟩ := h.advanceBy n
  exact ⟨_, hmore⟩

theorem StandsIn.advance {source : List Char} {s : Scanner} (h : s.StandsIn source) :
    s.advance.StandsIn source :=
  h.advanceBy 1

theorem StandsIn.skipRun {source : List Char} {s : Scanner} (h : s.StandsIn source) (p : Char → Bool) :
    (s.skipRun p).StandsIn source :=
  h.advanceBy _

theorem StandsIn.skipIgnored {source : List Char} {s : Scanner} (h : s.StandsIn source) :
    s.skipIgnored.StandsIn source :=
  h.advanceBy _

theorem StandsIn.skipComment {source : List Char} {s : Scanner} (h : s.StandsIn source) :
    s.skipComment.StandsIn source :=
  h.advanceBy _

theorem skipIgnored_advance {s : Scanner} {c : Char} {cs : List Char} (hs : s.rest = c :: cs)
    (hc : (isSpace c || c == ',') = true) : s.advance.skipIgnored = s.skipIgnored := by
  rw [skipIgnored, skipIgnored, rest_advance, hs, List.tail_cons, ignoredLength, if_neg (by simp),
    if_pos hc]
  rfl

/-- A comment ends with its line, and the end of the line is ignored again. -/
theorem ignoredLength_comment (cs : List Char) :
    ignoredLength true cs = (cs.takeWhile (!isLineEnd ·)).length +
      ignoredLength false (cs.dropWhile (!isLineEnd ·)) := by
  induction cs with
  | nil => rfl
  | cons c cs ih =>
    cases h : isLineEnd c with
    | false =>
      simp [ignoredLength, h, ih]
      omega
    | true => simp [ignoredLength, h, isSpace_of_isLineEnd]

theorem skipIgnored_skipComment {s : Scanner} {cs : List Char} (hs : s.rest = '#' :: cs) :
    s.skipComment.skipIgnored = s.skipIgnored := by
  have hlength : ignoredLength false ('#' :: cs) = ignoredLength true ('#' :: cs) := by
    simp [ignoredLength, isSpace, isLineEnd]
  rw [skipComment, skipIgnored, rest_skipRun, skipRun, ← advanceBy_add, skipIgnored, run, hs,
    ← ignoredLength_comment, hlength]

end Scanner

namespace CursorM

open Scanner

variable {α β : Type} {source : List Char} {levels : Nat} {s t : Scanner}

theorem bind_of_ok {act : CursorM α} {f : α → CursorM β} {c c' : Cursor} {a : α}
    (h : act c = .ok a c') : (act >>= f) c = f a c' := by
  change EStateM.bind act f c = _
  simp [EStateM.bind, h]

theorem bind_of_error {act : CursorM α} {f : α → CursorM β} {c c' : Cursor} {e : Stop}
    (h : act c = .error e c') : (act >>= f) c = .error e c' := by
  change EStateM.bind act f c = _
  simp [EStateM.bind, h]

theorem remaining_eq (h : s.StandsIn source) :
    remaining (s.cursor source levels) = .ok s.rest (s.cursor source levels) := by
  obtain ⟨passed, h⟩ := h
  change (match dropBytes? s.position.offset source with
    | some rest => pure rest
    | none => fail .cut : CursorM _) (s.cursor source levels) = _
  rw [h.dropBytes?_offset]
  rfl

/-- A cursor that stands inside a character has nothing to look at. -/
example : let c : Cursor := { source := ['é'], position := { offset := 1 } }
    remaining c = .error (.defect .cut) c := rfl

theorem peekChar_eq (h : s.StandsIn source) :
    peekChar (s.cursor source levels) = .ok s.peek? (s.cursor source levels) := by
  rw [peekChar, bind_of_ok (remaining_eq h)]
  rfl

theorem consume_eq (h : s.StandsIn source) :
    consume (s.cursor source levels) = .ok () (s.advance.cursor source levels) := by
  rw [consume, bind_of_ok (peekChar_eq h), peek?, Scanner.advance]
  cases s.rest with
  | nil => rfl
  | cons c cs => rfl

theorem scanner_eq (h : s.StandsIn source) :
    scanner (s.cursor source levels) = .ok s (s.cursor source levels) := by
  rw [scanner, bind_of_ok (remaining_eq h)]
  rfl

theorem refuse_eq (h : s.StandsIn source) (error : Scanner → ReadError) :
    (refuse error : CursorM α) (s.cursor source levels) =
      .error (.refused (error s)) (s.cursor source levels) := by
  rw [refuse, bind_of_ok (scanner_eq h)]
  rfl

/-- The text that a scanner has passed over is cut out of the source. -/
theorem slice_eq (h : s.StandsIn source) {n : Nat} {text : List Char}
    (hsplit : s.rest = text ++ (s.advanceBy n).rest) (c : Cursor) (hc : c.source = source) :
    slice s.position.offset (s.advanceBy n).position.offset c = .ok text c := by
  obtain ⟨passed, h⟩ := h
  have hspan := h.slice?_spanFrom (h.advanceBy_of_split hsplit)
  change (match ((s.advanceBy n).spanFrom s.position).slice? c.source with
    | some text => pure text
    | none => fail .cut : CursorM _) c = _
  rw [hc, hspan]
  rfl

theorem passWhile_eq (h : s.StandsIn source) (p : Char → Bool) {turns : Nat}
    (hturns : s.rest.length < turns) :
    passWhile p turns (s.cursor source levels) = .ok () ((s.skipRun p).cursor source levels) := by
  induction turns generalizing s with
  | zero => omega
  | succ turns ih =>
    rw [passWhile, bind_of_ok (peekChar_eq h), peek?, Scanner.skipRun, run]
    cases hrest : s.rest with
    | nil => rfl
    | cons c cs =>
      dsimp only [List.head?_cons]
      by_cases hc : p c = true
      · rw [hrest, List.length_cons] at hturns
        have hlength : s.advance.rest.length < turns := by
          rw [rest_advance, hrest, List.tail_cons]
          omega
        have hnext := ih h.advance hlength
        rw [Scanner.skipRun, run, rest_advance, hrest, List.tail_cons] at hnext
        rw [if_pos hc, bind_of_ok (consume_eq h), hnext, List.takeWhile_cons_of_pos hc]
        rfl
      · rw [if_neg hc, List.takeWhile_cons_of_neg hc]
        rfl

theorem consumeWhile_eq (h : s.StandsIn source) (p : Char → Bool) :
    consumeWhile p (s.cursor source levels) =
      .ok (s.run p) ((s.skipRun p).cursor source levels) := by
  have hpass : passWhile p (s.rest.length + 1) (s.cursor source levels) = _ :=
    passWhile_eq h p (Nat.lt_succ_self _)
  have hsplit := (s.run_append_rest_skipRun p).symm
  change (remaining >>= fun rest => passWhile p (rest.length + 1) >>= fun _ => _ : CursorM _)
    (s.cursor source levels) = _
  rw [bind_of_ok (remaining_eq h), bind_of_ok hpass]
  exact slice_eq h hsplit _ rfl

theorem passUpTo_of_lt {stop : Nat} {c : Cursor} (h : c.position.offset < stop) (turns : Nat) :
    passUpTo stop (turns + 1) c = (consume >>= fun _ => passUpTo stop turns : CursorM _) c := by
  change (if c.position.offset < stop then _ else _ : CursorM _) c = _
  rw [if_pos h]

theorem passUpTo_of_le {stop : Nat} {c : Cursor} (h : stop ≤ c.position.offset) (turns : Nat) :
    passUpTo stop (turns + 1) c = .ok () c := by
  change (if c.position.offset < stop then _ else _ : CursorM _) c = _
  rw [if_neg (by omega)]
  rfl

theorem passUpTo_eq (h : s.StandsIn source) {text rest : List Char} (hs : s.rest = text ++ rest)
    {turns : Nat} (hturns : text.length < turns) :
    passUpTo (s.position.offset + byteLength text) turns (s.cursor source levels) =
      .ok () ((s.advanceBy text.length).cursor source levels) := by
  induction text generalizing s turns with
  | nil =>
    obtain ⟨turns, rfl⟩ := Nat.exists_eq_add_of_lt hturns
    exact passUpTo_of_le (Nat.le_refl _) _
  | cons c text ih =>
    obtain ⟨turns, rfl⟩ := Nat.exists_eq_add_of_lt hturns
    have hfirst : s.rest = [c] ++ (text ++ rest) := hs
    have hoffset : s.advance.position.offset = s.position.offset + c.utf8Size :=
      offset_advanceBy_length hfirst
    have hrest : s.advance.rest = text ++ rest := by
      rw [rest_advance, hs]
      rfl
    have hpos := c.utf8Size_pos
    have hlt : s.position.offset < s.position.offset + byteLength (c :: text) := by
      rw [byteLength]
      omega
    have hlength : text.length < text.length + 1 + turns := by omega
    have hmore := ih h.advance hrest hlength
    rw [hoffset, Nat.add_assoc] at hmore
    rw [passUpTo_of_lt hlt, bind_of_ok (consume_eq h)]
    exact hmore

theorem consumeUntil_eq (h : s.StandsIn source) {d : Char} {byte : UInt8} (hd : d.toNat = byte.toNat)
    (ascii : byte.toNat < 128) :
    consumeUntil byte (s.cursor source levels) =
      match s.until? byte with
      | some (text, t) => .ok (some text) (t.cursor source levels)
      | none => .ok none (s.cursor source levels) := by
  rw [consumeUntil, bind_of_ok (remaining_eq h), if_neg (by omega), ← bytesBefore?_eq_findIdx?,
    bytesBefore?_eq hd ascii, s.until?_eq hd ascii]
  by_cases hmem : d ∈ s.rest
  · have hsplit := (s.run_append_rest_skipRun (· != d)).symm
    have hlength : (s.run (· != d)).length < s.rest.length + 1 :=
      Nat.lt_succ_of_le (List.takeWhile_prefix _).length_le
    have hpass : passUpTo _ _ (s.cursor source levels) = _ := passUpTo_eq h hsplit hlength
    have hslice := slice_eq h hsplit ((s.skipRun (· != d)).cursor source levels) rfl
    rw [skipRun, offset_advanceBy_length hsplit] at hslice
    rw [if_pos hmem, if_pos hmem]
    change (passUpTo (s.position.offset + byteLength (s.run (· != d))) (s.rest.length + 1) >>=
      fun _ => _ : CursorM _) (s.cursor source levels) = _
    rw [bind_of_ok hpass]
    exact bind_of_ok hslice
  · rw [if_neg hmem, if_neg hmem]
    rfl

theorem peekName_eq (h : s.StandsIn source) :
    peekName (s.cursor source levels) = .ok s.name? (s.cursor source levels) := by
  rw [peekName, bind_of_ok (remaining_eq h), name?, leadingName?.eq_def]
  cases s.rest with
  | nil => rfl
  | cons c cs =>
    dsimp only [List.head?_cons]
    by_cases hc : isNameStart c = true
    · have htake := takeBytes?_byteLength ((c :: cs).takeWhile isNameContinue)
        ((c :: cs).dropWhile isNameContinue)
      rw [List.takeWhile_append_dropWhile] at htake
      rw [if_pos hc, if_pos hc, htake]
      rfl
    · rw [if_neg hc, if_neg hc]
      rfl

theorem skipComment_eq (h : s.StandsIn source) (hs : s.peek? = some '#') :
    skipComment (s.cursor source levels) = .ok () (s.skipComment.cursor source levels) := by
  rw [skipComment, bind_of_ok (peekChar_eq h), if_pos hs, bind_of_ok (remaining_eq h)]
  exact passWhile_eq h _ (Nat.lt_succ_self _)

theorem passIgnored_eq (h : s.StandsIn source) {turns : Nat} (hturns : s.rest.length < turns) :
    passIgnored turns (s.cursor source levels) = .ok () (s.skipIgnored.cursor source levels) := by
  induction turns generalizing s with
  | zero => omega
  | succ turns ih =>
    rw [passIgnored, bind_of_ok (peekChar_eq h), peek?]
    cases hrest : s.rest with
    | nil =>
      rw [Scanner.skipIgnored, hrest]
      rfl
    | cons c cs =>
      dsimp only [List.head?_cons]
      rw [hrest, List.length_cons] at hturns
      by_cases hspace : (isSpace c || c == ',') = true
      · have hlength : s.advance.rest.length < turns := by
          rw [rest_advance, hrest, List.tail_cons]
          omega
        rw [if_pos hspace, bind_of_ok (consume_eq h), ih h.advance hlength,
          skipIgnored_advance hrest hspace]
      · rw [if_neg hspace]
        by_cases hcomment : c = '#'
        · subst hcomment
          have hlength : s.skipComment.rest.length < turns := by
            have hle := (List.dropWhile_suffix (!isLineEnd ·) (l := cs)).length_le
            rw [Scanner.skipComment, rest_skipRun, hrest, List.dropWhile_cons_of_pos (by decide)]
            omega
          have hpeek : s.peek? = some '#' := by rw [peek?, hrest, List.head?_cons]
          rw [if_pos (by decide), bind_of_ok (skipComment_eq h hpeek), ih h.skipComment hlength,
            skipIgnored_skipComment hrest]
        · have hsig : isSignificant c = true := by simp_all [isSignificant]
          rw [if_neg (by simpa using hcomment), skipIgnored_eq_self hrest hsig]
          rfl

theorem skipIgnored_eq (h : s.StandsIn source) :
    skipIgnored (s.cursor source levels) = .ok () (s.skipIgnored.cursor source levels) := by
  rw [skipIgnored, bind_of_ok (remaining_eq h)]
  exact passIgnored_eq h (Nat.lt_succ_self _)

end CursorM

end QueryDoc
