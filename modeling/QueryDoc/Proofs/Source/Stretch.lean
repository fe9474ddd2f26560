import QueryDoc.Proofs.Source.LineBreak

/-! Stretches of a text and the spans over them. A span stops where counting on from its start
leads, which is the position of the text up to there unless a line ends inside the stretch. -/

namespace QueryDoc

/-- A part of a text, given with all that stands before it. -/
structure Stretch where
  before : List Char
  text : List Char
deriving DecidableEq, Repr

/-- No line break of two characters goes on from the first text into the second. -/
def CleanCut (before after : List Char) : Prop :=
  before.getLast? = some '\r' → after.head? ≠ some '\n'

theorem cleanCut_cons {c : Char} (hc : c ≠ '\n') (before after : List Char) :
    CleanCut before (c :: after) :=
  fun _ hhead => hc (Option.some.inj hhead)

theorem cleanCut_concat {c : Char} (hc : c ≠ '\r') (before after : List Char) :
    CleanCut (before ++ [c]) after := by
  intro hlast
  rw [List.getLast?_concat] at hlast
  exact absurd (Option.some.inj hlast) hc

theorem EndsRun.cleanCut {after : List Char} (h : EndsRun isLineEnd after) (before : List Char) :
    CleanCut before after := by
  intro _ hhead
  cases h '\n' hhead

/-- A text without line ends can be passed over. -/
theorem CleanCut.append {before text after : List Char} (h : CleanCut before (text ++ after))
    (htext : ∀ c ∈ text, isLineEnd c = false) : CleanCut (before ++ text) after := by
  cases text using List.reverseRecOn with
  | nil => rwa [List.append_nil]
  | append_singleton text c =>
    have hc : c ≠ '\r' := by
      rintro rfl
      cases htext '\r' (by simp)
    rw [← List.append_assoc]
    exact cleanCut_concat hc _ _

namespace Position

def pastAll (p : Position) (cs : List Char) : Position :=
  cs.foldl past p

theorem after_eq_past {c : Char} (hc : isLineEnd c = false) (p : Position) (afterReturn : Bool) :
    p.after afterReturn c = p.past c := by
  simp only [isLineEnd, Bool.or_eq_false_iff, beq_eq_false_iff_ne] at hc
  rw [after, if_neg hc.1, if_neg hc.2]

theorem pastAll_ofPrefix (before : List Char) {cs : List Char}
    (h : ∀ c ∈ cs, isLineEnd c = false) :
    (ofPrefix before).pastAll cs = ofPrefix (before ++ cs) := by
  induction cs generalizing before with
  | nil => rw [List.append_nil]; rfl
  | cons c cs ih =>
    have hh := List.forall_mem_cons.mp h
    rw [pastAll, List.foldl_cons, ← after_eq_past hh.1 _ (before.getLast? == some '\r'),
      after_ofPrefix, List.append_cons before c cs]
    exact ih (before ++ [c]) hh.2

theorem offset_pastAll (p : Position) (cs : List Char) :
    (p.pastAll cs).offset = p.offset + byteLength cs := by
  induction cs generalizing p with
  | nil => rfl
  | cons c cs ih =>
    rw [pastAll, List.foldl_cons, byteLength, ← Nat.add_assoc]
    exact ih (p.past c)

theorem line_pastAll (p : Position) (cs : List Char) : (p.pastAll cs).line = p.line := by
  induction cs generalizing p with
  | nil => rfl
  | cons c cs ih => exact ih (p.past c)

theorem column_pastAll (p : Position) (cs : List Char) :
    (p.pastAll cs).column = p.column + cs.length := by
  induction cs generalizing p with
  | nil => rfl
  | cons c cs ih =>
    rw [pastAll, List.foldl_cons, List.length_cons, Nat.add_comm cs.length 1, ← Nat.add_assoc]
    exact ih (p.past c)

/-- Both line ends take one byte and one column. -/
theorem past_lineEnd (p : Position) {c d : Char} (hc : isLineEnd c = true)
    (hd : isLineEnd d = true) : p.past c = p.past d := by
  simp only [isLineEnd, Bool.or_eq_true, beq_iff_eq] at hc hd
  rcases hc with rfl | rfl <;> rcases hd with rfl | rfl <;> rfl

theorem Alike.past {p q : Position} (h : p.Alike q) (c : Char) : (p.past c).Alike (q.past c) := by
  refine ⟨h.line, ?_, ?_⟩
  · simp only [Position.past, h.column]
  · simp only [Position.past, h.column16]

theorem Alike.pastAll {p q : Position} (h : p.Alike q) (cs : List Char) :
    (p.pastAll cs).Alike (q.pastAll cs) := by
  induction cs generalizing p q with
  | nil => exact h
  | cons c cs ih => exact ih (h.past c)

end Position

namespace Span

def across (file : Option String) (x : Stretch) : Span :=
  { start := .ofPrefix x.before, stop := (Position.ofPrefix x.before).pastAll x.text, file }

/-- The span starts at the position which the text before the stretch determines, and it cuts exactly
the stretch out of the text. -/
structure Marks (span : Span) (source : List Char) (x : Stretch) : Prop where
  start : span.start = .ofPrefix x.before
  stop : span.stop.offset = byteLength (x.before ++ x.text)
  within : x.before ++ x.text <+: source
  slice : span.slice? source = some x.text

theorem Marks.bounds {span : Span} {source : List Char} {x : Stretch} (h : span.Marks source x) :
    span.start.offset ≤ span.stop.offset ∧ span.stop.offset ≤ byteLength source := by
  obtain ⟨after, hafter⟩ := h.within
  rw [h.start, h.stop, ← hafter]
  simp [Position.ofPrefix]

theorem across_marks (file : Option String) {source : List Char} {x : Stretch}
    (h : x.before ++ x.text <+: source) : (across file x).Marks source x := by
  obtain ⟨after, rfl⟩ := h
  have hstop : (across file x).stop.offset = byteLength (x.before ++ x.text) := by
    rw [across, Position.offset_pastAll, byteLength_append]
    rfl
  refine ⟨rfl, hstop, List.prefix_append _ _, ?_⟩
  have hlen : byteLength (x.before ++ x.text) - byteLength x.before = byteLength x.text := by
    rw [byteLength_append]
    omega
  have hle : byteLength x.before ≤ byteLength (x.before ++ x.text) := by
    rw [byteLength_append]
    omega
  have hstart : (across file x).start.offset = byteLength x.before := rfl
  rw [slice?, hstop, hstart, if_pos hle, hlen, List.append_assoc, dropBytes?_byteLength]
  exact takeBytes?_byteLength x.text after

/-- Spans whose starts and whose stops have the same lines and columns. -/
structure Alike (a b : Span) : Prop where
  start : a.start.Alike b.start
  stop : a.stop.Alike b.stop

theorem across_alike (b : LineBreak) (file file' : Option String) {x : Stretch}
    (h : '\r' ∉ x.before) : (across file x).Alike (across file' ⟨b.respell x.before, x.text⟩) :=
  ⟨Position.ofPrefix_alike b h, (Position.ofPrefix_alike b h).pastAll x.text⟩

end Span

namespace Scanner

theorem nextSpan_cons {s : Scanner} {c : Char} {cs : List Char} (hs : s.rest = c :: cs) :
    s.nextSpan = { start := s.position, stop := s.position.past c, file := s.file } := by
  rw [nextSpan, hs]

theorem spanFrom_advance {s : Scanner} {c : Char} {cs : List Char} (hs : s.rest = c :: cs)
    (hc : isLineEnd c = false) : s.advance.spanFrom s.position = s.nextSpan := by
  rw [nextSpan_cons hs, ← Position.after_eq_past hc s.position s.afterReturn]
  simp only [advance, hs, spanFrom]

theorem StandsAfter.nextSpan_eq {source passed : List Char} {s : Scanner} {c : Char}
    {cs : List Char} (h : s.StandsAfter source passed) (hs : s.rest = c :: cs) :
    s.nextSpan = .across s.file ⟨passed, [c]⟩ := by
  rw [nextSpan_cons hs, h.position]
  rfl

end Scanner

end QueryDoc
