import QueryDoc.Proofs.Checked.Token
import QueryDoc.Proofs.Completion.Value

/-! Types and values, read by byte offsets. Each level that is opened inside another one is closed again,
and the delimiters that have been seen are there when they are read. -/

namespace QueryDoc

open Scanner

namespace CursorM

variable {α : Type} {source : List Char} {limit d : Nat} {s : Scanner}

theorem enter_of_lt (hd : d < limit) :
    enter limit (s.cursor source d) = .ok () (s.cursor source (d + 1)) := by
  change (if limit ≤ d then _ else _ : CursorM Unit) _ = _
  rw [if_neg (by omega)]
  rfl

theorem enter_full (h : s.StandsIn source) : enter limit (s.cursor source limit) =
    .error (.refused (.nestedTooDeep limit s.nextSpan)) (s.cursor source limit) := by
  change (if limit ≤ limit then _ else _ : CursorM Unit) _ = _
  rw [if_pos (Nat.le_refl _), refuse_eq h]

theorem leave_eq : leave (s.cursor source (d + 1)) = .ok () (s.cursor source d) := rfl

/-- A level that is not open cannot be closed. -/
example : leave { source := [] } = .error (.defect .level) { source := [] } := rfl

/-- A level is closed however reading inside it ends. -/
theorem mirrors_finally_leave {act : CursorM α} {r : EStateM.Result ReadError Scanner α}
    (h : Mirrors source (d + 1) (act (s.cursor source (d + 1))) r) :
    Mirrors source d ((try act finally leave : CursorM α) (s.cursor source (d + 1))) r := by
  cases hrun : act (s.cursor source (d + 1)) with
  | ok a c =>
    rw [hrun] at h
    cases h with
    | @ok _ t ht =>
      have hclosed : (try act finally leave : CursorM α) (s.cursor source (d + 1)) =
          .ok a (t.cursor source d) := by
        simp [tryFinally, MonadFinally.tryFinally', Functor.map, EStateM.map, hrun, leave_eq]
      rw [hclosed]
      exact .ok ht
  | error e c =>
    rw [hrun] at h
    cases h with
    | @error e t ht =>
      have hclosed : (try act finally leave : CursorM α) (s.cursor source (d + 1)) =
          .error (.refused e) (t.cursor source d) := by
        simp [tryFinally, MonadFinally.tryFinally', Functor.map, EStateM.map, hrun, leave_eq]
      rw [hclosed]
      exact .error ht

end CursorM

namespace Follows

variable {α : Type} {source : List Char} {limit d : Nat} {s : Scanner} {checked : CursorM α}
  {act : ReadM α}

theorem within_of_lt (hd : d < limit) (h : Follows source (d + 1) checked act s) :
    Follows source d (.within limit checked) act s := by
  intro hs
  rw [CursorM.within, CursorM.bind_of_ok (CursorM.enter_of_lt hd)]
  exact CursorM.mirrors_finally_leave (h hs)

theorem within_full : Follows source limit (.within limit checked)
    (.failWith fun s => .nestedTooDeep limit s.nextSpan) s := by
  intro hs
  rw [CursorM.within, CursorM.bind_of_error (CursorM.enter_full hs)]
  exact .error hs

theorem nested {body : CursorM α → CursorM α} (countdown : Nat → ReadM α)
    (hzero : countdown 0 = .failWith fun s => .nestedTooDeep limit s.nextSpan)
    (hbody : ∀ {d inner levels}, (∀ {s}, Follows source d inner (countdown levels) s) →
      ∀ {s}, Follows source d (body inner) (countdown (levels + 1)) s)
    {levels turns : Nat} (hlevels : d + levels = limit) (hturns : levels < turns) :
    Follows source d (.nested limit body turns) (countdown levels) s := by
  induction levels generalizing d turns s with
  | zero =>
    obtain ⟨turns, rfl⟩ := Nat.exists_eq_add_of_lt hturns
    obtain rfl : d = limit := hlevels
    rw [hzero]
    exact within_full
  | succ levels ih =>
    obtain ⟨turns, rfl⟩ := Nat.exists_eq_add_of_lt hturns
    exact within_of_lt (by omega) (hbody (ih (by omega) (by omega)))

end Follows

/-! ### Types -/

namespace TypeRef

open CursorM

def readMarkChecked (base : TypeRef) : CursorM TypeRef := do
  if (← peek?) = some '!' then
    let _ ← recheck (literal "!")
    return nonNull base
  else return base

/-- What is read inside a list may end anywhere, so that the closing bracket need not be there. -/
def readBaseChecked (inner : CursorM TypeRef) : CursorM TypeRef := do
  if (← peek "type") = '[' then
    let opening ← recheck (literal "[")
    let t ← inner
    let _ ← peekInside "[" opening
    let _ ← literal "]"
    return list t
  else
    let name ← withHelp "a type is a name like `Int` or a list type like `[Int]`" name
    return named name

def readChecked (limit : Nat) : CursorM TypeRef :=
  nested limit (fun inner => readBaseChecked inner >>= readMarkChecked) (limit + 1)

variable {source : List Char} {d limit : Nat} {s : Scanner}

theorem readMarkChecked_follows (base : TypeRef) :
    Follows source d (readMarkChecked base) (readMark base) s := by
  refine Follows.peek?.bind fun c t hpeek => ?_
  split
  · next hmark =>
    rw [hmark] at hpeek
    refine (Follows.recheck_literal "!" (Token.significant_of_peek? hpeek) rfl).bind fun _ _ _ => ?_
    exact .pure _
  · exact .pure _

theorem readBaseChecked_follows {inner : CursorM TypeRef} {inner' : ReadM TypeRef}
    (hinner : ∀ {s}, Follows source d inner inner' s) :
    Follows source d (readBaseChecked inner) (readBase inner') s := by
  refine (Follows.peek "type").bind fun c t hpeek => ?_
  split
  · next hbracket =>
    rw [hbracket] at hpeek
    refine (Follows.recheck_literal "[" (Token.significant_of_peek hpeek) rfl).bind fun _ _ _ => ?_
    refine hinner.bind fun inside _ _ => (Follows.peekInside "[" _).bind fun _ _ _ => ?_
    exact (Follows.literal "]").bind fun _ _ _ => .pure _
  · exact (Follows.name.withHelp _).bind fun _ _ _ => .pure _

theorem readChecked_follows (limit : Nat) :
    Follows source 0 (readChecked limit) (read limit) s := by
  refine .nested (readWithin limit) rfl (fun h => ?_) (Nat.zero_add limit) (Nat.lt_succ_self limit)
  rw [readWithin_succ]
  exact (readBaseChecked_follows h).bind fun _ _ _ => readMarkChecked_follows _

end TypeRef

/-! ### Phrases in a row -/

namespace CursorM

variable {α : Type}

def readUntil (closing : Char) (delimiter : String) (opening : Span) (item : CursorM α) :
    (turns : Nat) → CursorM (List α)
  | 0 => fail .endless
  | turns + 1 => do
    if (← peekInside delimiter opening) = closing then return []
    else
      let a ← item
      let rest ← readUntil closing delimiter opening item turns
      return a :: rest

end CursorM

/-- A loop ends, because each turn leaves less of the text. -/
theorem Follows.readUntil {α : Type} {source : List Char} {d : Nat} {s : Scanner} (closing : Char)
    (delimiter : String) (opening : Span) {item : CursorM α} {item' : ReadM α}
    (hitem : ∀ {s}, Follows source d item item' s) (hconsumes : ReadM.Consumes item') {turns : Nat}
    (hturns : s.rest.length < turns) :
    Follows source d (.readUntil closing delimiter opening item turns)
      (QueryDoc.readUntil closing delimiter opening item' turns) s := by
  induction turns generalizing s with
  | zero => omega
  | succ turns ih =>
    refine (Follows.peekInside _ _).bind fun c t hpeek => ?_
    have hle := (Token.peekInside_advances _ _).length_le hpeek
    split
    · exact .pure _
    · refine hitem.bind fun a u ha => ?_
      have hlt := hconsumes ha
      exact (ih (by omega)).bind fun _ _ _ => .pure _

/-! ### Values -/

namespace Atom

open CursorM

def readKeywordChecked (word : String) (value : Atom) : CursorM Atom := do
  let _ ← withHelp ("values starting with `t`, `f` or `n` are read as `true`, `false` " ++
    "or `null`, so enum values cannot start with those letters") (keyword word)
  return value

def readNumberChecked : CursorM Atom := do
  let start := (← get).position
  let text ← consumeWhile isNumberContinue
  match ofNumber? text with
  | some a => return a
  | none => refuse fun s => .invalidNumber (String.ofList text) (s.spanFrom start)

def readListChecked (item : CursorM Atom) : CursorM Atom := do
  let opening ← recheck (literal "[")
  let items ← CursorM.readUntil ']' "[" opening item ((← remaining).length + 1)
  let _ ← recheck (literal "]")
  return list items

def readFieldsChecked (value : CursorM Atom) (opening : Span) :
    (turns : Nat) → (seen : List (String × Span)) → CursorM (List (String × Atom))
  | 0, _ => fail .endless
  | turns + 1, seen => do
    if (← peekInside "\x7b" opening) = '}' then return []
    else
      let start := (← get).position
      let key ← name
      let c ← get
      let span : Span := { start, stop := c.position, file := c.file }
      match seen.lookup key with
      | some first => refuse fun _ => .duplicateField key span first
      | none =>
        let _ ← literal ":"
        let a ← value
        let rest ← readFieldsChecked value opening turns ((key, span) :: seen)
        return (key, a) :: rest

def readObjectChecked (value : CursorM Atom) : CursorM Atom := do
  let opening ← recheck (literal "\x7b")
  let fields ← readFieldsChecked value opening ((← remaining).length + 1) []
  let _ ← recheck (literal "\x7d")
  return object fields

def readBodyChecked (inner : CursorM Atom) : CursorM Atom := do
  let c ← peek "value"
  if isNumberStart c then readNumberChecked
  else if c = '"' then return string (← CursorM.string)
  else if c = 't' then readKeywordChecked "true" (bool true)
  else if c = 'f' then readKeywordChecked "false" (bool false)
  else if c = 'n' then readKeywordChecked "null" null
  else if c = '[' then readListChecked inner
  else if c = '{' then readObjectChecked inner
  else
    match ← name? with
    | some name => return enum name
    | none => refuse (·.unexpected ["value"])

def readChecked (limit : Nat) : CursorM Atom :=
  nested limit readBodyChecked (limit + 1)

variable {source : List Char} {d limit : Nat} {s : Scanner} {inner : CursorM Atom}
  {inner' : ReadM Atom}

theorem readKeywordChecked_follows (word : String) (value : Atom) :
    Follows source d (readKeywordChecked word value) (readKeyword word value) s :=
  ((Follows.keyword word).withHelp _).bind fun _ _ _ => .pure _

theorem readNumberChecked_follows : Follows source d readNumberChecked readNumber s := by
  refine .get (.look (fun _ => rfl) ?_)
  refine .step (fun h => consumeWhile_eq h _) rfl (fun h => h.skipRun _) ?_
  cases ofNumber? (s.run isNumberContinue) with
  | some a => exact .pure _
  | none => exact .refuse _

theorem readListChecked_follows (h : ∃ cs, significant s.rest = '[' :: cs)
    (hinner : ∀ {s}, Follows source d inner inner' s)
    (hconsumes : ReadM.Consumes inner') :
    Follows source d (readListChecked inner) (readList inner') s := by
  refine (Follows.recheck_literal "[" h rfl).bind fun opening t _ => ?_
  refine .get (.look remaining_eq ?_)
  rw [readItems_eq]
  refine (Follows.readUntil ']' "[" opening hinner hconsumes (Nat.lt_succ_self _)).bind
    fun items u hitems => ?_
  exact (Follows.recheck_literal "]" (readUntil_closing hitems) rfl).bind fun _ _ _ => .pure _

theorem readFieldsChecked_follows (hinner : ∀ {s}, Follows source d inner inner' s)
    (hconsumes : ReadM.Consumes inner') (opening : Span) {turns : Nat} (hturns : s.rest.length < turns)
    (seen : List (String × Span)) :
    Follows source d (readFieldsChecked inner opening turns seen)
      (readFields inner' opening turns seen) s := by
  induction turns generalizing seen s with
  | zero => omega
  | succ turns ih =>
    refine (Follows.peekInside _ _).bind fun c t hpeek => ?_
    have hle := (Token.peekInside_advances _ _).length_le hpeek
    split
    · exact .pure _
    refine .get (.look (fun _ => rfl) (Follows.name.bind fun key u hkey => ?_))
    have hle' := Token.name_advances.length_le hkey
    refine .get (.look (fun _ => rfl) ?_)
    change Follows source d
      (match seen.lookup key with
        | some first => refuse fun _ => .duplicateField key (u.spanFrom t.position) first
        | none => _)
      _ u
    cases seen.lookup key with
    | some first => exact .refuse _
    | none =>
      refine (Follows.literal ":").bind fun _ v hcolon => hinner.bind fun a w ha => ?_
      have hle'' := (Token.literal_advances _).length_le hcolon
      have hlt := hconsumes ha
      exact (ih (by omega) _).bind fun _ _ _ => .pure _

theorem readObjectChecked_follows (h : ∃ cs, significant s.rest = '{' :: cs)
    (hinner : ∀ {s}, Follows source d inner inner' s)
    (hconsumes : ReadM.Consumes inner') :
    Follows source d (readObjectChecked inner) (readObject inner') s := by
  refine (Follows.recheck_literal "\x7b" h rfl).bind fun opening t _ => ?_
  refine .get (.look remaining_eq ?_)
  refine (readFieldsChecked_follows hinner hconsumes opening (Nat.lt_succ_self _) []).bind
    fun fields u hfields => ?_
  exact (Follows.recheck_literal "\x7d" (readFields_closing hfields) rfl).bind fun _ _ _ => .pure _

theorem readBodyChecked_follows (hinner : ∀ {s}, Follows source d inner inner' s)
    (hconsumes : ReadM.Consumes inner') :
    Follows source d (readBodyChecked inner) (Token.peek "value" >>= readFrom inner') s := by
  refine (Follows.peek "value").bind fun c t hpeek => ?_
  have hc := Token.significant_of_peek hpeek
  rw [readFrom]
  split
  · exact readNumberChecked_follows
  split
  · next hquote => exact (Follows.string (hquote ▸ hc)).bind fun _ _ _ => .pure _
  split
  · exact readKeywordChecked_follows _ _
  split
  · exact readKeywordChecked_follows _ _
  split
  · exact readKeywordChecked_follows _ _
  split
  · next hbracket => exact readListChecked_follows (hbracket ▸ hc) hinner hconsumes
  split
  · next hbrace => exact readObjectChecked_follows (hbrace ▸ hc) hinner hconsumes
  refine Follows.name?.bind fun name _ _ => ?_
  cases name with
  | some name => exact .pure _
  | none => exact .refuse _

theorem readChecked_follows (limit : Nat) : Follows source 0 (readChecked limit) (read limit) s := by
  refine .nested (readWithin limit) rfl (fun {_ _ levels} h => ?_) (Nat.zero_add limit)
    (Nat.lt_succ_self limit)
  rw [readWithin_succ]
  exact readBodyChecked_follows h (readWithin_consumes limit levels)

end Atom

end QueryDoc
