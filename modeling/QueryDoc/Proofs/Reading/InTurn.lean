import QueryDoc.Proofs.Counted.Calls
import QueryDoc.Proofs.Document.RoundTrip

/-! Nodes that are written in one text and read from it by one call after another. A call may look at
what comes after its node, but it stops where the node ends, so that the next call finds its own node
whole. -/

namespace QueryDoc

open ReadM

/-- Ignored input that stays so in front of any text, because all comments in it are ended. -/
inductive Gap : List Char → Prop
  | nil : Gap []
  | space {c : Char} {cs : List Char} : (isSpace c || c == ',') = true → Gap cs → Gap (c :: cs)
  | comment {text cs : List Char} {c : Char} :
      (∀ d ∈ text, isLineEnd d = false) → isLineEnd c = true → Gap cs →
      Gap ('#' :: (text ++ c :: cs))

theorem isTokenContinue_of_isSpace {c : Char} (h : (isSpace c || c == ',') = true) :
    isTokenContinue c = false := by
  simp only [isSpace, Bool.or_eq_true, beq_iff_eq] at h
  rcases h with ((((rfl | rfl) | rfl) | rfl) | rfl) | rfl <;> decide

theorem Gap.ignored {gap : List Char} (h : Gap gap) (rest : List Char) :
    Ignored (gap ++ rest) rest := by
  induction h with
  | nil => exact .done rest
  | space hc _ ih => exact .space hc ih
  | comment htext hc _ ih =>
    rw [List.cons_append, List.append_assoc]
    exact .comment htext (endsRun_cons.mpr (by simp [hc])) (.space (isSpace_of_isLineEnd hc) ih)

theorem Gap.endsRun {gap : List Char} (h : Gap gap) (hne : gap ≠ []) (rest : List Char) :
    EndsRun isTokenContinue (gap ++ rest) := by
  cases h with
  | nil => exact absurd rfl hne
  | space hc _ => exact endsRun_cons.mpr (isTokenContinue_of_isSpace hc)
  | comment _ _ _ => exact endsRun_cons.mpr (by decide)

theorem Ignored.endsRun {trail : List Char} (h : Ignored trail []) :
    EndsRun isTokenContinue trail := by
  cases h with
  | done => exact .nil _
  | space hc _ => exact endsRun_cons.mpr (isTokenContinue_of_isSpace hc)
  | comment _ _ _ => exact endsRun_cons.mpr (by decide)

theorem SpellsType.begins {input rest : List Char} {t : TypeRef} (h : SpellsType input t rest) :
    ∃ c cs, significant input = c :: cs ∧ (c = '[' ∨ isNameStart c = true) := by
  induction h with
  | named hname =>
    obtain ⟨c, cs, hcs, hc⟩ := hname.begins
    exact ⟨c, cs, hcs, .inr hc⟩
  | list hopen _ _ _ => exact ⟨'[', _, (ignored_cons_iff (by decide)).mp hopen, .inl rfl⟩
  | nonNull _ _ _ ih => exact ih

/-- Makes a call and keeps its answer together with what was asked for. -/
def Call.ask (limit : Nat) (call : Call) : ReadM (Σ call : Call, call.Answer) := do
  let answer ← call.act limit
  return ⟨call, answer⟩

namespace Node

/-- A node as the answer to the call that reads nodes of its kind. -/
def asAnswer : Node → Σ call : Call, call.Answer
  | atom a => ⟨.value, a⟩
  | type t => ⟨.type, t⟩
  | variableDefinition v => ⟨.variableDefinition, v⟩
  | operation op => ⟨.operation, op⟩
  | document d => ⟨.document, d⟩

/-- A value, a type or a variable definition that reads back from what is written for it, where no more
than `limit` levels are allowed. -/
def IsReadable (limit : Nat) : Node → Prop
  | atom a => a.isWellFormed = true ∧ a.nesting ≤ limit
  | type t => t.isWellFormed = true ∧ t.nesting ≤ limit
  | variableDefinition v => v.WellFormed ∧ v.nesting ≤ limit
  | operation _ | document _ => False

/-- The characters with which a node would go on past ignored input: a mark that a type is not null, a
default value and a directive. -/
def continuations : List Char := ['!', '=', '@']

/-- What may stand after a node. -/
structure MayFollow (rest : List Char) : Prop where
  ends : EndsRun isTokenContinue rest
  apart : ∀ c ∈ continuations, (significant rest).head? ≠ some c

variable {limit : Nat} {node : Node} {rest : List Char}

theorem begins (style : Style) (h : node.IsReadable limit) (hrest : MayFollow rest) :
    ∃ c cs, significant (node.chars style ++ rest) = c :: cs ∧ c ∉ continuations := by
  cases node with
  | atom a =>
    have hnot : (continuations.all fun d => !SpellsAtom.first d) = true := by decide
    obtain ⟨c, cs, hcs, hc⟩ := (Atom.spells_chars style h.1 hrest.ends).begins
    refine ⟨c, cs, hcs, fun hm => ?_⟩
    have hh := List.all_eq_true.mp hnot c hm
    rw [hc] at hh
    cases hh
  | type t =>
    have hnot : (continuations.all fun d => !(d == '[' || isNameStart d)) = true := by decide
    obtain ⟨c, cs, hcs, hc⟩ := (TypeRef.spells_chars h.1 hrest.ends).begins
    refine ⟨c, cs, hcs, fun hm => ?_⟩
    have hh := List.all_eq_true.mp hnot c hm
    simp_all
  | variableDefinition v =>
    have hspells := spells_variable style h.1 ⟨hrest.ends, hrest.apart '@' (by decide)⟩
    obtain ⟨cs, hcs⟩ := hspells.begins
    exact ⟨'$', cs, hcs, by decide⟩
  | operation op => exact h.elim
  | document d => exact h.elim

theorem ask_reaches (style : Style) (h : node.IsReadable limit) (hrest : MayFollow rest)
    {s : Scanner} (hs : significant s.rest = significant (node.chars style ++ rest)) :
    Reaches (node.asAnswer.1.ask limit) s node.asAnswer rest := by
  have hmark := hrest.apart '!' (by decide)
  cases node with
  | atom a =>
    have hspells := Atom.spells_chars style h.1 hrest.ends
    exact .bind (Atom.readWithin_reaches hspells h.2 hs) fun _ hs' => .pure hs'
  | type t =>
    have hspells := TypeRef.spells_chars h.1 hrest.ends
    exact .bind (TypeRef.readWithin_reaches hspells h.2 hmark hs) fun _ hs' => .pure hs'
  | variableDefinition v =>
    have hspells := spells_variable style h.1 ⟨hrest.ends, hrest.apart '@' (by decide)⟩
    have hequals := hrest.apart '=' (by decide)
    exact .bind (VariableDefinition.read_reaches hspells h.2 hmark hequals hs) fun _ hs' => .pure hs'
  | operation op => exact h.elim
  | document d => exact h.elim

/-- A node as it is written in a text, with the ignored input in front of it. -/
structure Placed where
  gap : List Char
  node : Node
  style : Style

namespace Placed

/-- A text of nodes, with more ignored input at its end. -/
def text (placed : List Placed) (trail : List Char) : List Char :=
  placed.flatMap (fun p => p.gap ++ p.node.chars p.style) ++ trail

variable {placed : List Placed} {trail : List Char}

theorem text_cons (p : Placed) (placed : List Placed) (trail : List Char) :
    text (p :: placed) trail = p.gap ++ (p.node.chars p.style ++ text placed trail) := by
  simp [text]

/-- The nodes that are left may stand after a node, because each of them comes after a gap. -/
theorem mayFollow_text (hreadable : ∀ p ∈ placed, p.node.IsReadable limit)
    (hgaps : ∀ p ∈ placed, Gap p.gap) (hapart : ∀ p ∈ placed, p.gap ≠ [])
    (htrail : Ignored trail []) : MayFollow (text placed trail) := by
  induction placed with
  | nil =>
    refine ⟨htrail.endsRun, fun c _ => ?_⟩
    have hend : significant (text [] trail) = [] := ignored_nil_iff.mp htrail
    simp [hend]
  | cons p placed ih =>
    obtain ⟨hp, hreadable⟩ := List.forall_mem_cons.mp hreadable
    obtain ⟨hgap, hgaps⟩ := List.forall_mem_cons.mp hgaps
    obtain ⟨hne, hapart⟩ := List.forall_mem_cons.mp hapart
    obtain ⟨c, cs, hcs, hc⟩ := begins p.style hp (ih hreadable hgaps hapart)
    rw [text_cons]
    refine ⟨hgap.endsRun hne _, fun d hd => ?_⟩
    rw [significant_eq_of_ignored (hgap.ignored _), hcs, List.head?_cons]
    rintro ⟨⟩
    exact hc hd

theorem ask_each_reaches (hreadable : ∀ p ∈ placed, p.node.IsReadable limit)
    (hgaps : ∀ p ∈ placed, Gap p.gap) (hapart : ∀ p ∈ placed.tail, p.gap ≠ [])
    (htrail : Ignored trail []) {s : Scanner}
    (hs : significant s.rest = significant (text placed trail)) :
    Reaches ((placed.map (·.node.asAnswer.1)).mapM (Call.ask limit)) s
      (placed.map (·.node.asAnswer)) trail := by
  induction placed generalizing s with
  | nil => exact .pure hs
  | cons p placed ih =>
    obtain ⟨hp, hreadable⟩ := List.forall_mem_cons.mp hreadable
    obtain ⟨hgap, hgaps⟩ := List.forall_mem_cons.mp hgaps
    -- The gap in front of the first node may be empty, those behind it are not.
    have hfollow := mayFollow_text hreadable hgaps hapart htrail
    rw [text_cons, significant_eq_of_ignored (hgap.ignored _)] at hs
    rw [List.map_cons, List.map_cons, List.mapM_cons]
    refine .bind (ask_reaches p.style hp hfollow hs) fun s₁ hs₁ => ?_
    have hrest := ih hreadable hgaps (fun q hq => hapart q (List.mem_of_mem_tail hq)) hs₁
    exact .bind hrest fun s₂ hs₂ => .pure hs₂

end Placed

/-- Nodes that are written in one text, each in a style of its own and with ignored input between any
two of them, are read from it by the calls for their kinds, and nothing is left over. -/
theorem ask_each_text {options : ReadOptions} {placed : List Placed} {trail : List Char}
    (hreadable : ∀ p ∈ placed, p.node.IsReadable options.depth)
    (hgaps : ∀ p ∈ placed, Gap p.gap) (hapart : ∀ p ∈ placed.tail, p.gap ≠ [])
    (htrail : Ignored trail []) :
    onText (do
        let answers ← (placed.map (·.node.asAnswer.1)).mapM (Call.ask options.depth)
        Token.finish
        return answers) (Placed.text placed trail) options.file =
      .ok (placed.map (·.node.asAnswer)) := by
  obtain ⟨s, hanswers, hs⟩ := Placed.ask_each_reaches hreadable hgaps hapart htrail
    (s := .start (Placed.text placed trail) options.file) rfl
  have hfinish := Token.finish_ok_iff.mpr ⟨rfl, hs.trans (ignored_nil_iff.mp htrail)⟩
  refine onText_ok_iff.mpr ⟨s.skipIgnored, ?_⟩
  rw [bind_of_ok hanswers, bind_of_ok hfinish]
  rfl

/-- A type is told from the mark in the comment after it, and a variable without a default value from
the value after it. -/
theorem ask_each_text_three_kinds :
    let limit := 2
    let placed : List Placed :=
      [⟨[], .type (.list (.named "T")), .pretty⟩,
       ⟨['#', '!', '\n'], .variableDefinition { name := "x", type := .named "T" }, .pretty⟩,
       ⟨[','], .atom (.list [.enum "a", .int 5]), .minified⟩]
    (∀ p ∈ placed, p.node.IsReadable limit) ∧ (∀ p ∈ placed, Gap p.gap) ∧
      (∀ p ∈ placed.tail, p.gap ≠ []) ∧ Ignored ['#'] [] ∧
      Placed.text placed ['#'] = "[T]#!\n$x: T,[a,5]#".toList ∧
      onText (do
          let answers ← (placed.map (·.node.asAnswer.1)).mapM (Call.ask limit)
          Token.finish
          return answers) (Placed.text placed ['#']) =
        .ok [⟨.type, .list (.named "T")⟩, ⟨.variableDefinition, { name := "x", type := .named "T" }⟩,
          ⟨.value, .list [.enum "a", .int 5]⟩] := by
  intro limit placed
  have hreadable : ∀ p ∈ placed, p.node.IsReadable limit := by
    have hvariable : VariableDefinition.WellFormed { name := "x", type := .named "T" } :=
      ⟨by decide, by decide, nofun, rfl⟩
    simp only [placed, List.forall_mem_cons]
    exact ⟨⟨by decide, by decide⟩, ⟨hvariable, by decide⟩, ⟨by decide, by decide⟩, nofun⟩
  have hgaps : ∀ p ∈ placed, Gap p.gap := by
    have htext : ∀ c ∈ ['!'], isLineEnd c = false := List.forall_mem_singleton.mpr (by decide)
    have hcomment : Gap ['#', '!', '\n'] := .comment htext (by decide) .nil
    simp only [placed, List.forall_mem_cons]
    exact ⟨.nil, hcomment, .space (by decide) .nil, nofun⟩
  have hapart : ∀ p ∈ placed.tail, p.gap ≠ [] := by simp [placed]
  have htrail : Ignored ['#'] [] := @Ignored.comment [] _ _ nofun (.nil _) (.done [])
  exact ⟨hreadable, hgaps, hapart, htrail, by decide,
    @ask_each_text { depth := limit } _ _ hreadable hgaps hapart htrail⟩

end Node

end QueryDoc
