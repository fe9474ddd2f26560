import Mathlib.Algebra.GroupWithZero.Nat
import Mathlib.Data.List.DropRight
import QueryDoc.Source.Scanner

/-! The position that a text determines, read off the text as a whole, and its agreement with the
counts a scanner keeps. However a scanner is moved, it stands after a prefix of its source, at the
position of that prefix, and the span between two of its places is the text passed over between
them. -/

namespace QueryDoc

/-- A line feed, a carriage return, and a carriage return with the line feed after it each make one
line break. -/
def lineBreaks : List Char → Nat
  | [] => 0
  | '\r' :: '\n' :: cs => lineBreaks cs + 1
  | c :: cs => lineBreaks cs + if isLineEnd c then 1 else 0

def lastLine (cs : List Char) : List Char :=
  cs.rtakeWhile (!isLineEnd ·)

theorem lineBreaks_concat (cs : List Char) (c : Char) :
    lineBreaks (cs ++ [c]) =
      lineBreaks cs +
        if isLineEnd c = true ∧ ¬ (c = '\n' ∧ cs.getLast? = some '\r') then 1 else 0 := by
  induction cs using lineBreaks.induct with
  | case1 => simp [lineBreaks]
  | case2 cs ih =>
    have hlast : ('\r' :: '\n' :: cs).getLast? = some '\r' ↔ cs.getLast? = some '\r' := by
      cases cs <;> simp [List.getLast?_cons_cons]
    simp only [List.cons_append, lineBreaks, ih, hlast]
    omega
  | case3 d cs hpair ih =>
    cases cs with
    | nil =>
      by_cases h : d = '\r' ∧ c = '\n'
      · obtain ⟨rfl, rfl⟩ := h
        rfl
      · have hpair' : ∀ es, d = '\r' → [c] = '\n' :: es → False := by
          rintro es rfl he
          exact h ⟨rfl, (List.cons.inj he).1⟩
        have hc : ¬ (c = '\n' ∧ [d].getLast? = some '\r') := by
          simpa [and_comm] using h
        rw [List.singleton_append, lineBreaks.eq_3 d [c] hpair', lineBreaks.eq_3 d [] hpair]
        simp only [lineBreaks, hc, not_false_eq_true, and_true]
        omega
    | cons e cs =>
      have hpair' : ∀ es, d = '\r' → e :: (cs ++ [c]) = '\n' :: es → False := by
        rintro es rfl he
        obtain ⟨rfl, _⟩ := List.cons.inj he
        exact hpair cs rfl rfl
      rw [List.cons_append, List.cons_append, lineBreaks.eq_3 d _ hpair', ← List.cons_append, ih,
        lineBreaks.eq_3 d _ hpair, List.getLast?_cons_cons]
      omega

theorem lastLine_concat (cs : List Char) (c : Char) :
    lastLine (cs ++ [c]) = if isLineEnd c then [] else lastLine cs ++ [c] := by
  simp only [lastLine, List.rtakeWhile_concat]
  cases isLineEnd c <;> rfl

theorem lastLine_eq_nil_of_return {cs : List Char} (h : cs.getLast? = some '\r') :
    lastLine cs = [] := by
  obtain ⟨ds, rfl⟩ := List.getLast?_eq_some_iff.mp h
  rw [lastLine_concat]
  rfl

namespace Position

/-- The place after a text that starts at the beginning of the source. -/
def ofPrefix (cs : List Char) : Position :=
  { line := lineBreaks cs
    column := (lastLine cs).length
    column16 := ((lastLine cs).map utf16Size).sum
    offset := byteLength cs }

/-- Counting one character more from the position of a text leads to the position of the text with
that character. Only the last character of the text has to be remembered for it. -/
theorem after_ofPrefix (cs : List Char) (c : Char) :
    (ofPrefix cs).after (cs.getLast? == some '\r') c = ofPrefix (cs ++ [c]) := by
  by_cases hfeed : c = '\n'
  · subst hfeed
    have hsize : '\n'.utf8Size = 1 := rfl
    by_cases hlast : cs.getLast? = some '\r'
    · have hline := lastLine_eq_nil_of_return hlast
      simp [after, ofPrefix, hlast, hline, lineBreaks_concat, lastLine_concat, isLineEnd,
        byteLength, hsize]
    · simp [after, ofPrefix, newline, hlast, lineBreaks_concat, lastLine_concat, isLineEnd,
        byteLength, hsize]
  · by_cases hreturn : c = '\r'
    · subst hreturn
      have hsize : '\r'.utf8Size = 1 := rfl
      simp [after, ofPrefix, newline, lineBreaks_concat, lastLine_concat, isLineEnd, byteLength,
        hsize]
    · have hend : isLineEnd c = false := by simp [isLineEnd, hfeed, hreturn]
      simp [after, ofPrefix, past, hfeed, hreturn, hend, lineBreaks_concat, lastLine_concat,
        byteLength]

theorem offset_after (p : Position) (afterReturn : Bool) (c : Char) :
    (p.after afterReturn c).offset = p.offset + c.utf8Size := by
  unfold after
  split
  · next hfeed =>
    subst hfeed
    cases afterReturn <;> rfl
  split
  · next hreturn =>
    subst hreturn
    rfl
  · rfl

end Position

theorem byteLength_eq_zero_iff {cs : List Char} : byteLength cs = 0 ↔ cs = [] := by
  cases cs with
  | nil => exact iff_of_true rfl rfl
  | cons c cs =>
    have hpos := c.utf8Size_pos
    exact iff_of_false (by rw [byteLength]; omega) (List.cons_ne_nil c cs)

theorem dropBytes?_byteLength (cs ds : List Char) :
    dropBytes? (byteLength cs) (cs ++ ds) = some ds := by
  induction cs with
  | nil => cases ds <;> rfl
  | cons c cs ih =>
    obtain ⟨n, hn, hle, hsub⟩ := byteLength_cons_eq_succ c cs
    simp only [List.cons_append, hn, dropBytes?, hle, if_true, hsub, ih]

theorem takeBytes?_byteLength (cs ds : List Char) :
    takeBytes? (byteLength cs) (cs ++ ds) = some cs := by
  induction cs with
  | nil => cases ds <;> rfl
  | cons c cs ih =>
    obtain ⟨n, hn, hle, hsub⟩ := byteLength_cons_eq_succ c cs
    simp only [List.cons_append, hn, takeBytes?, hle, if_true, hsub, ih, Option.map_some]

theorem Span.slice?_eq {span : Span} {cs ds : List Char}
    (hstart : span.start = Position.ofPrefix cs) (hstop : span.stop = Position.ofPrefix (cs ++ ds))
    (es : List Char) : span.slice? (cs ++ (ds ++ es)) = some ds := by
  have hlen : byteLength (cs ++ ds) - byteLength cs = byteLength ds := by
    rw [byteLength_append]
    omega
  have hle : byteLength cs ≤ byteLength (cs ++ ds) := by
    rw [byteLength_append]
    omega
  rw [slice?, hstart, hstop]
  simp only [Position.ofPrefix, hle, if_true, hlen, dropBytes?_byteLength, Option.bind_some,
    takeBytes?_byteLength]

namespace Scanner

/-- The operations on a scanner. Those that only look at what comes next are one of them. An
occurrence is looked for of ASCII bytes alone. -/
inductive Move
  | look
  | advance
  | skipRun (p : Char → Bool)
  | skipUntil (byte : UInt8) (ascii : byte.toNat < 128)
  | skipIgnored
  | skipComment

/-- The scanner stays where it is when the byte looked for does not occur. -/
def move (s : Scanner) : Move → Scanner
  | .look => s
  | .advance => s.advance
  | .skipRun p => s.skipRun p
  | .skipUntil byte _ =>
    match s.until? byte with
    | some (_, t) => t
    | none => s
  | .skipIgnored => s.skipIgnored
  | .skipComment => s.skipComment

def moves (s : Scanner) (ms : List Move) : Scanner :=
  ms.foldl move s

/-- The scanner has passed over exactly the text `passed` of its source. -/
structure StandsAfter (source passed : List Char) (s : Scanner) : Prop where
  split : passed ++ s.rest = source
  position : s.position = Position.ofPrefix passed
  afterReturn : s.afterReturn = true ↔ passed.getLast? = some '\r'

theorem standsAfter_start (source : List Char) (file : Option String) :
    StandsAfter source [] (start source file) :=
  ⟨rfl, rfl, by simp [start]⟩

/-- Every move passes over some number of the characters ahead. -/
theorem move_eq_advanceBy (s : Scanner) (m : Move) : ∃ n, s.move m = s.advanceBy n := by
  cases m with
  | look => exact ⟨0, rfl⟩
  | advance => exact ⟨1, rfl⟩
  | skipRun p => exact ⟨(s.run p).length, rfl⟩
  | skipUntil byte ascii =>
    cases h : bytesBefore? byte s.rest with
    | none => exact ⟨0, by simp [move, until?, h, advanceBy]⟩
    | some bytes => exact ⟨charsCovering bytes s.rest, by simp [move, until?, h]⟩
  | skipIgnored => exact ⟨ignoredLength false s.rest, rfl⟩
  | skipComment => exact ⟨(s.run (!isLineEnd ·)).length, rfl⟩

theorem offset_advanceBy (s : Scanner) (n : Nat) :
    (s.advanceBy n).position.offset = s.position.offset + byteLength (s.rest.take n) := by
  induction n generalizing s with
  | zero => rfl
  | succ n ih =>
    rw [advanceBy, ih, rest_advance]
    cases hs : s.rest with
    | nil => rw [Scanner.advance, hs, List.tail_nil, List.take_nil, List.take_nil]
    | cons c cs =>
      rw [Scanner.advance, hs, Position.offset_after, List.tail_cons, List.take_succ_cons, byteLength,
        Nat.add_assoc]

theorem offset_advanceBy_length {s : Scanner} {text rest : List Char} (hs : s.rest = text ++ rest) :
    (s.advanceBy text.length).position.offset = s.position.offset + byteLength text := by
  rw [offset_advanceBy, hs, List.take_left]

namespace StandsAfter

variable {source passed : List Char} {s : Scanner}

theorem advance (h : StandsAfter source passed s) :
    ∃ more, StandsAfter source (passed ++ more) s.advance := by
  cases hrest : s.rest with
  | nil =>
    refine ⟨[], ?_⟩
    rw [Scanner.advance, hrest, List.append_nil]
    exact h
  | cons c cs =>
    have hreturn : s.afterReturn = (passed.getLast? == some '\r') := by
      rw [Bool.eq_iff_iff, h.afterReturn, beq_iff_eq]
    refine ⟨[c], ?_, ?_, ?_⟩
    · rw [rest_advance, hrest, List.append_assoc]
      exact (congrArg (passed ++ ·) hrest.symm).trans h.split
    · rw [Scanner.advance, hrest, h.position, hreturn]
      exact Position.after_ofPrefix passed c
    · simp [Scanner.advance, hrest]

theorem advanceBy (h : StandsAfter source passed s) (n : Nat) :
    ∃ more, StandsAfter source (passed ++ more) (s.advanceBy n) := by
  induction n generalizing passed s with
  | zero => exact ⟨[], by rwa [List.append_nil]⟩
  | succ n ih =>
    obtain ⟨more, hadvance⟩ := h.advance
    obtain ⟨yet, hh⟩ := ih hadvance
    exact ⟨more ++ yet, List.append_assoc passed more yet ▸ hh⟩

theorem advanceBy_of_split {text : List Char} {n : Nat} (h : StandsAfter source passed s)
    (hs : s.rest = text ++ (s.advanceBy n).rest) :
    StandsAfter source (passed ++ text) (s.advanceBy n) := by
  obtain ⟨more, hmore⟩ := h.advanceBy n
  have hh := hmore.split.trans h.split.symm
  rw [hs, List.append_assoc] at hh
  obtain rfl := List.append_cancel_right (List.append_cancel_left hh)
  exact hmore

theorem advanceBy_length {text rest : List Char} (h : StandsAfter source passed s)
    (hs : s.rest = text ++ rest) : StandsAfter source (passed ++ text) (s.advanceBy text.length) :=
  h.advanceBy_of_split (by rw [rest_advanceBy, hs, List.drop_left])

theorem move (h : StandsAfter source passed s) (m : Move) :
    ∃ more, StandsAfter source (passed ++ more) (s.move m) := by
  obtain ⟨n, hn⟩ := s.move_eq_advanceBy m
  rw [hn]
  exact h.advanceBy n

theorem moves (h : StandsAfter source passed s) (ms : List Move) :
    ∃ more, StandsAfter source (passed ++ more) (s.moves ms) := by
  induction ms generalizing passed s with
  | nil => exact ⟨[], by rwa [List.append_nil]⟩
  | cons m ms ih =>
    obtain ⟨more, hmove⟩ := h.move m
    obtain ⟨yet, hh⟩ := ih hmove
    exact ⟨more ++ yet, List.append_assoc passed more yet ▸ hh⟩

theorem offset_le (h : StandsAfter source passed s) : s.position.offset ≤ byteLength source := by
  rw [h.position, ← h.split, byteLength_append]
  exact Nat.le_add_right _ _

theorem dropBytes?_offset (h : StandsAfter source passed s) :
    dropBytes? s.position.offset source = some s.rest := by
  rw [h.position, ← h.split]
  exact dropBytes?_byteLength passed s.rest

/-- The offset tells where a scanner stands. -/
theorem eq_of_offset {passed' : List Char} {t : Scanner} (h : StandsAfter source passed s)
    (ht : StandsAfter source passed' t) (hfile : s.file = t.file)
    (hoffset : s.position.offset = t.position.offset) : s = t := by
  have hdrop := h.dropBytes?_offset
  rw [hoffset, ht.dropBytes?_offset] at hdrop
  have hrest : s.rest = t.rest := (Option.some.inj hdrop).symm
  have hsplit := h.split.trans ht.split.symm
  rw [hrest] at hsplit
  obtain rfl := List.append_cancel_right hsplit
  have hposition := h.position.trans ht.position.symm
  have hreturn := Bool.eq_iff_iff.mpr (h.afterReturn.trans ht.afterReturn.symm)
  cases s
  cases t
  simp_all

theorem slice?_spanFrom {more : List Char} {t : Scanner} (h : StandsAfter source passed s)
    (ht : StandsAfter source (passed ++ more) t) :
    (t.spanFrom s.position).slice? source = some more := by
  have hsplit : passed ++ (more ++ t.rest) = source := by
    rw [← List.append_assoc, ht.split]
  rw [← hsplit]
  exact Span.slice?_eq h.position ht.position t.rest

end StandsAfter

theorem advanceBy_eq_of_offset {source : List Char} {file : Option String} {m n : Nat}
    (h : ((start source file).advanceBy m).position.offset =
      ((start source file).advanceBy n).position.offset) :
    (start source file).advanceBy m = (start source file).advanceBy n := by
  obtain ⟨passed, hm⟩ := (standsAfter_start source file).advanceBy m
  obtain ⟨passed', hn⟩ := (standsAfter_start source file).advanceBy n
  exact hm.eq_of_offset hn (by rw [file_advanceBy, file_advanceBy]) h

/-- However a scanner is moved, it stands after a prefix of its source at the position which that
prefix determines, no move takes it back, and the span from a place where it stood is the text that
it has passed over since. -/
theorem moves_position (source : List Char) (file : Option String) (earlier later : List Move) :
    let s := (start source file).moves earlier
    let t := s.moves later
    ∃ passed more, StandsAfter source passed s ∧ StandsAfter source (passed ++ more) t ∧
      s.position.offset ≤ t.position.offset ∧ t.position.offset ≤ byteLength source ∧
      dropBytes? t.position.offset source = some t.rest ∧
      (t.spanFrom s.position).slice? source = some more := by
  intro s t
  obtain ⟨passed, hs⟩ := (standsAfter_start source file).moves earlier
  rw [List.nil_append] at hs
  obtain ⟨more, ht⟩ := hs.moves later
  have hoffset : s.position.offset ≤ t.position.offset := by
    rw [hs.position, ht.position]
    simp [Position.ofPrefix]
  exact ⟨passed, more, hs, ht, hoffset, ht.offset_le, ht.dropBytes?_offset, hs.slice?_spanFrom ht⟩

/-- Between a carriage return and its line feed the line break has already been counted. -/
example : ((start "é\r\n🎉x".toList).moves [.skipRun (· != '\r'), .advance]).position =
    { line := 1, offset := 3 } := by
  decide

end Scanner

end QueryDoc
