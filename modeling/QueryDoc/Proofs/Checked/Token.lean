import QueryDoc.Proofs.Checked.Cursor
import QueryDoc.Proofs.Reading.Token

/-! The tokens, read by byte offsets. Each of them does what it does on a scanner, and nothing else goes
wrong on the way. -/

namespace QueryDoc

open Scanner

/-- The first run ends like the second one, on the cursor at the same place. -/
inductive Mirrors {α : Type} (source : List Char) (levels : Nat) :
    EStateM.Result Stop Cursor α → EStateM.Result ReadError Scanner α → Prop
  | ok {a : α} {t : Scanner} : t.StandsIn source →
      Mirrors source levels (.ok a (t.cursor source levels)) (.ok a t)
  | error {e : ReadError} {t : Scanner} : t.StandsIn source →
      Mirrors source levels (.error (.refused e) (t.cursor source levels)) (.error e t)

/-- From the place of the scanner, the first action does what the second one does. -/
def Follows {α : Type} (source : List Char) (levels : Nat) (checked : CursorM α) (act : ReadM α)
    (s : Scanner) : Prop :=
  s.StandsIn source → Mirrors source levels (checked (s.cursor source levels)) (act s)

namespace Follows

variable {α β γ δ : Type} {source : List Char} {levels : Nat} {s t : Scanner} {checked : CursorM α}
  {act : ReadM α} {f : α → CursorM β} {g : α → ReadM β}

theorem pure (a : α) : Follows source levels (pure a) (pure a) s :=
  fun h => .ok h

theorem refuse (error : Scanner → ReadError) :
    Follows source levels (.refuse error : CursorM α) (.failWith error) s := by
  intro h
  rw [CursorM.refuse_eq h]
  exact .error h

theorem bind (h : Follows source levels checked act s)
    (hf : ∀ a t, act s = .ok a t → Follows source levels (f a) (g a) t) :
    Follows source levels (checked >>= f) (act >>= g) s := by
  intro hs
  have hmirrors := h hs
  change Mirrors source levels (EStateM.bind checked f _) (EStateM.bind act g s)
  unfold EStateM.bind
  generalize checked (s.cursor source levels) = r at hmirrors
  cases hact : act s with
  | ok a t =>
    rw [hact] at hmirrors
    cases hmirrors with
    | ok ht => exact hf a t hact ht
  | error e t =>
    rw [hact] at hmirrors
    cases hmirrors with
    | error ht => exact .error ht

/-- Both take a step, maybe with different answers. -/
theorem step {prep : CursorM γ} {prep' : ReadM δ} {c : γ} {d : δ} {f : γ → CursorM β}
    {g : δ → ReadM β}
    (hprep : s.StandsIn source → prep (s.cursor source levels) = .ok c (t.cursor source levels))
    (hprep' : prep' s = .ok d t) (ht : s.StandsIn source → t.StandsIn source)
    (hf : Follows source levels (f c) (g d) t) :
    Follows source levels (prep >>= f) (prep' >>= g) s := by
  intro hs
  rw [CursorM.bind_of_ok (hprep hs), ReadM.bind_of_ok hprep']
  exact hf (ht hs)

/-- The first one looks at the text. -/
theorem look {prep : CursorM γ} {c : γ} {f : γ → CursorM α}
    (hprep : s.StandsIn source → prep (s.cursor source levels) = .ok c (s.cursor source levels))
    (hf : Follows source levels (f c) act s) : Follows source levels (prep >>= f) act s := by
  intro hs
  rw [CursorM.bind_of_ok (hprep hs)]
  exact hf hs

theorem get {g : Scanner → ReadM α} (h : Follows source levels checked (g s) s) :
    Follows source levels checked (get >>= g) s :=
  h

theorem withHelp (message : String) (h : Follows source levels checked act s) :
    Follows source levels (checked.withHelp message) (act.withHelp message) s := by
  intro hs
  have hmirrors := h hs
  unfold CursorM.withHelp ReadM.withHelp
  generalize checked (s.cursor source levels) = r at hmirrors ⊢
  cases hact : act s with
  | ok a t =>
    rw [hact] at hmirrors
    cases hmirrors with
    | ok ht => exact .ok ht
  | error e t =>
    rw [hact] at hmirrors
    cases hmirrors with
    | error ht => exact .error ht

/-- What cannot be refused may be checked again. -/
theorem recheck (h : Follows source levels checked act s) (hok : ∃ a t, act s = .ok a t) :
    Follows source levels checked.recheck act s := by
  obtain ⟨a, t, hact⟩ := hok
  intro hs
  have hmirrors := h hs
  unfold CursorM.recheck
  generalize checked (s.cursor source levels) = r at hmirrors ⊢
  rw [hact] at hmirrors ⊢
  cases hmirrors with
  | ok ht => exact .ok ht

end Follows

namespace Token

variable {s t : Scanner} {c : Char}

theorem significant_of_peek? (h : peek? s = .ok (some c) t) : ∃ cs, significant t.rest = c :: cs := by
  rw [peek?_eq] at h
  obtain ⟨hhead, rfl⟩ := EStateM.Result.ok.inj h
  obtain ⟨cs, hcs⟩ := List.head?_eq_some_iff.mp hhead
  exact ⟨cs, by rw [rest_skipIgnored, significant_significant, hcs]⟩

theorem significant_of_peek {expected : String} (h : peek expected s = .ok c t) :
    ∃ cs, significant t.rest = c :: cs := by
  obtain ⟨rfl, cs, hcs⟩ := peek_ok h
  exact ⟨cs, by rw [rest_skipIgnored, significant_significant, hcs]⟩

end Token

namespace CursorM

def peek? : CursorM (Option Char) := do
  skipIgnored
  peekChar

def peek (expected : String) : CursorM Char := do
  match ← peek? with
  | some c => return c
  | none => refuse (·.endOfInput [expected])

def peekInside (delimiter : String) (opening : Span) : CursorM Char := do
  match ← peek? with
  | some c => return c
  | none => refuse (·.unclosed delimiter opening)

def passOver (text : String) : List Char → CursorM Unit
  | [] => return ()
  | c :: cs => do
    if (← peekChar) = some c then
      consume
      passOver text cs
    else refuse (·.unexpected [text])

def literal (text : String) : CursorM Span := do
  skipIgnored
  let start := (← get).position
  passOver text text.toList
  let c ← get
  return { start, stop := c.position, file := c.file }

def keyword (word : String) : CursorM Span := do
  skipIgnored
  match ← peekName with
  | none => refuse (·.unexpected [word])
  | some found =>
    if found = word.toList then recheck (literal word)
    else
      let start := (← get).position
      let _ ← consumeWhile isNameContinue
      refuse fun s => .wrongKeyword word.toList found (s.spanFrom start)

def name? : CursorM (Option String) := do
  match ← peek? with
  | none => return none
  | some c =>
    if isNameStart c then return some (String.ofList (← consumeWhile isNameContinue))
    else return none

def name : CursorM String := do
  let _ ← peek "name"
  match ← name? with
  | some n => return n
  | none => refuse (·.unexpected ["name"])

/-- A string is read where its opening quote has been seen. -/
def string : CursorM String := do
  let opening ← recheck (literal "\"")
  match ← consumeUntil 34 with
  | some contents =>
    consume
    return String.ofList contents
  | none => refuse fun _ => .unterminatedString opening

def finish : CursorM Unit := do
  match ← peek? with
  | none => return ()
  | some _ => refuse (·.unexpected ["end of input"])

end CursorM

namespace Follows

variable {α β : Type} {source : List Char} {levels : Nat} {s t : Scanner} {act : ReadM α}
  {f : Option Char → CursorM α} {g : Option Char → ReadM α}

theorem skipIgnored {f : Unit → CursorM α} {g : Unit → ReadM α}
    (h : Follows source levels (f ()) (g ()) s.skipIgnored) :
    Follows source levels (CursorM.skipIgnored >>= f) (modify Scanner.skipIgnored >>= g) s :=
  step CursorM.skipIgnored_eq rfl StandsIn.skipIgnored h

theorem peek? : Follows source levels .peek? Token.peek? s :=
  skipIgnored <| get fun h => by
    rw [CursorM.peekChar_eq h]
    exact .ok h

theorem peek (expected : String) : Follows source levels (.peek expected) (Token.peek expected) s := by
  refine peek?.bind fun c t _ => ?_
  cases c with
  | none => exact refuse _
  | some c => exact pure c

theorem peekInside (delimiter : String) (opening : Span) :
    Follows source levels (.peekInside delimiter opening) (Token.peekInside delimiter opening) s := by
  refine peek?.bind fun c t _ => ?_
  cases c with
  | none => exact refuse _
  | some c => exact pure c

theorem passOver (text : String) (cs : List Char) :
    Follows source levels (.passOver text cs) (Token.passOver text cs) s := by
  induction cs generalizing s with
  | nil => exact pure ()
  | cons c cs ih =>
    refine get (look CursorM.peekChar_eq ?_)
    split
    · exact step CursorM.consume_eq rfl StandsIn.advance ih
    · exact refuse _

theorem literal (text : String) : Follows source levels (.literal text) (Token.literal text) s := by
  refine skipIgnored (get (look (fun _ => rfl) ((passOver text _).bind fun u t _ => ?_)))
  exact get (look (fun _ => rfl) (pure _))

/-- A delimiter that has been seen is there when it is read. -/
theorem recheck_literal (text : String) {c : Char} (h : ∃ cs, significant s.rest = c :: cs)
    (htext : text.toList = [c]) :
    Follows source levels (.recheck (.literal text)) (Token.literal text) s := by
  obtain ⟨cs, hcs⟩ := h
  exact (literal text).recheck ⟨_, _, Token.literal_of_singleton text hcs htext⟩

theorem keyword (word : String) : Follows source levels (.keyword word) (Token.keyword word) s := by
  refine skipIgnored (get (look CursorM.peekName_eq ?_))
  cases hname : s.skipIgnored.name? with
  | none => exact refuse _
  | some found =>
    dsimp only
    split
    · next hfound =>
      rw [Scanner.name?, rest_skipIgnored] at hname
      obtain ⟨rest, hrest, -⟩ := spellsName_of_leadingName? hname
      rw [← significant_significant, ← rest_skipIgnored, hfound] at hrest
      obtain ⟨span, t, hread, -⟩ := Token.literal_of_significant hrest
      exact (literal word).recheck ⟨span, t, hread⟩
    · refine look (fun _ => rfl) ?_
      exact step (fun h => CursorM.consumeWhile_eq h _) rfl (fun h => h.skipRun _) (refuse _)

theorem name? : Follows source levels .name? Token.name? s := by
  refine peek?.bind fun c t _ => ?_
  cases c with
  | none => exact pure _
  | some c =>
    dsimp only
    split
    · exact get (step (fun h => CursorM.consumeWhile_eq h _) rfl (fun h => h.skipRun _) (pure _))
    · exact pure _

theorem name : Follows source levels .name Token.name s := by
  refine (peek "name").bind fun _ t _ => name?.bind fun n u _ => ?_
  cases n with
  | none => exact refuse _
  | some n => exact pure n

theorem string (hquote : ∃ cs, significant s.rest = '"' :: cs) :
    Follows source levels .string Token.string s := by
  refine (recheck_literal "\"" hquote rfl).bind fun opening t _ => get ?_
  intro ht
  have huntil : CursorM.consumeUntil 34 (t.cursor source levels) = _ :=
    CursorM.consumeUntil_eq ht (d := '"') (by decide) (by decide)
  have hsearch : t.until? 34 = _ := t.until?_eq (d := '"') (by decide) (by decide)
  by_cases hmem : '"' ∈ t.rest
  · rw [if_pos hmem] at hsearch
    rw [hsearch] at huntil ⊢
    have hrun := ht.skipRun (· != '"')
    rw [CursorM.bind_of_ok huntil]
    dsimp only
    rw [CursorM.bind_of_ok (CursorM.consume_eq hrun)]
    exact .ok hrun.advance
  · rw [if_neg hmem] at hsearch
    rw [hsearch] at huntil ⊢
    rw [CursorM.bind_of_ok huntil]
    exact refuse _ ht

/-- Where no quote has been seen the check may fail. -/
example : CursorM.string { source := ['a'] } = .error (.defect .recheck) { source := ['a'] } := rfl

theorem finish : Follows source levels .finish Token.finish s := by
  refine peek?.bind fun c t _ => ?_
  cases c with
  | none => exact pure _
  | some _ => exact refuse _

end Follows

end QueryDoc
