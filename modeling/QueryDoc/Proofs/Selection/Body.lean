import Mathlib.Data.List.Induction
import QueryDoc.Proofs.Grammar.Basic

/-! Scanning the inside of a selection set character by character, with a count of the braces that
are open, and what such a scan has to do with balanced texts. -/

namespace QueryDoc

/-- What a scan is inside of. Braces count in the code alone. -/
inductive BodyPlace where
  | code
  | string
  | comment
deriving DecidableEq, Repr

structure BodyScan where
  place : BodyPlace
  /-- How many braces are open, the one of the selection set included. -/
  depth : Nat
deriving DecidableEq, Repr

namespace BodyScan

def step (scan : BodyScan) (c : Char) : BodyScan :=
  match scan.place with
  | .code =>
    if c = '{' then { scan with depth := scan.depth + 1 }
    else if c = '}' then { scan with depth := scan.depth - 1 }
    else if c = '"' then { scan with place := .string }
    else if c = '#' then { scan with place := .comment }
    else scan
  | .string => if c = '"' then { scan with place := .code } else scan
  | .comment => if isLineEnd c then { scan with place := .code } else scan

end BodyScan

namespace BodyPlace

/-- What a scan is inside of after a character does not depend on its depth. -/
def step (place : BodyPlace) (c : Char) : BodyPlace :=
  (BodyScan.step ⟨place, 0⟩ c).place

def after (place : BodyPlace) (cs : List Char) : BodyPlace :=
  cs.foldl step place

end BodyPlace

namespace BodyScan

/-- Scans a text, unless the last brace is closed on the way. -/
def run (scan : BodyScan) : List Char → Option BodyScan
  | [] => some scan
  | c :: cs => if (scan.step c).depth = 0 then none else (scan.step c).run cs

theorem place_step (scan : BodyScan) (c : Char) :
    (scan.step c).place = scan.place.step c := by
  obtain ⟨place, depth⟩ := scan
  cases place <;> simp only [step, BodyPlace.step] <;> (repeat' split) <;> rfl

theorem place_of_run {scan last : BodyScan} {cs : List Char} (h : scan.run cs = some last) :
    last.place = scan.place.after cs := by
  induction cs generalizing scan with
  | nil =>
    cases h
    rfl
  | cons c cs ih =>
    rw [run] at h
    split at h
    · cases h
    · rw [ih h, place_step]
      rfl

theorem run_append (scan : BodyScan) (cs ds : List Char) :
    scan.run (cs ++ ds) = (scan.run cs).bind (·.run ds) := by
  induction cs generalizing scan with
  | nil => rfl
  | cons c cs ih =>
    simp only [List.cons_append, run]
    split
    · rfl
    · exact ih _

theorem depth_pos_of_run {scan last : BodyScan} {cs : List Char} (hscan : 0 < scan.depth)
    (h : scan.run cs = some last) : 0 < last.depth := by
  induction cs generalizing scan with
  | nil =>
    cases h
    exact hscan
  | cons c cs ih =>
    rw [run] at h
    split at h
    · cases h
    · next hne => exact ih (Nat.pos_of_ne_zero hne) h

/-- Nothing but a brace closes a brace. -/
theorem eq_of_step_depth_eq_zero {scan : BodyScan} {c : Char} (hdepth : 0 < scan.depth)
    (h : (scan.step c).depth = 0) : scan = ⟨.code, 1⟩ ∧ c = '}' := by
  obtain ⟨place, depth⟩ := scan
  cases place with
  | code =>
    simp only [step] at h
    split at h
    · cases h
    split at h
    · next hc =>
      dsimp only at h hdepth
      obtain rfl : depth = 1 := by omega
      exact ⟨rfl, hc⟩
    split at h
    · exact absurd h (Nat.ne_of_gt hdepth)
    split at h <;> exact absurd h (Nat.ne_of_gt hdepth)
  | string =>
    simp only [step] at h
    split at h <;> exact absurd h (Nat.ne_of_gt hdepth)
  | comment =>
    simp only [step] at h
    split at h <;> exact absurd h (Nat.ne_of_gt hdepth)

theorem exists_brace_of_run_eq_none {scan : BodyScan} {cs : List Char} (hdepth : 0 < scan.depth)
    (h : scan.run cs = none) :
    ∃ body rest, cs = body ++ '}' :: rest ∧ scan.run body = some ⟨.code, 1⟩ := by
  induction cs generalizing scan with
  | nil => cases h
  | cons c cs ih =>
    rw [run] at h
    by_cases hzero : (scan.step c).depth = 0
    · obtain ⟨rfl, rfl⟩ := eq_of_step_depth_eq_zero hdepth hzero
      exact ⟨[], cs, rfl, rfl⟩
    · rw [if_neg hzero] at h
      obtain ⟨body, rest, rfl, hrun⟩ := ih (Nat.pos_of_ne_zero hzero) h
      exact ⟨c :: body, rest, rfl, by rw [run, if_neg hzero, hrun]⟩

theorem step_eq_string_iff {scan : BodyScan} {c : Char} {d : Nat} :
    scan.step c = ⟨.string, d⟩ ↔
      scan = ⟨.code, d⟩ ∧ c = '"' ∨ scan = ⟨.string, d⟩ ∧ c ≠ '"' := by
  obtain ⟨place, depth⟩ := scan
  cases place <;> simp only [step] <;> (repeat' split) <;> simp_all

theorem step_eq_comment_iff {scan : BodyScan} {c : Char} {d : Nat} :
    scan.step c = ⟨.comment, d⟩ ↔
      scan = ⟨.code, d⟩ ∧ c = '#' ∨ scan = ⟨.comment, d⟩ ∧ isLineEnd c = false := by
  obtain ⟨place, depth⟩ := scan
  cases place <;> simp only [step] <;> (repeat' split) <;> simp_all

end BodyScan

namespace BodyPlace

variable {place : BodyPlace} {c : Char} {cs : List Char}

theorem after_append (place : BodyPlace) (cs ds : List Char) :
    place.after (cs ++ ds) = (place.after cs).after ds :=
  List.foldl_append

theorem step_eq_comment_iff :
    place.step c = .comment ↔ place = .code ∧ c = '#' ∨ place = .comment ∧ isLineEnd c = false := by
  cases place <;> simp only [step, BodyScan.step] <;> (repeat' split) <;> simp_all

/-- A comment that is open at the end of a text has been opened in it, and no line has ended since. -/
theorem exists_number_sign (h : after .code cs = .comment) :
    ∃ front text, cs = front ++ '#' :: text ∧ ∀ c ∈ text, isLineEnd c = false := by
  induction cs using List.reverseRecOn with
  | nil => cases h
  | append_singleton cs c ih =>
    rw [after_append] at h
    rcases step_eq_comment_iff.mp h with ⟨-, rfl⟩ | ⟨hcs, hc⟩
    · exact ⟨cs, [], rfl, nofun⟩
    · obtain ⟨front, text, rfl, htext⟩ := ih hcs
      refine ⟨front, text ++ [c], by simp, ?_⟩
      exact List.forall_mem_append.mpr ⟨htext, List.forall_mem_singleton.mpr hc⟩

end BodyPlace

namespace BodyScan

/-- What a scan of a text from code on is inside of at its end: code, or a string or a comment that
the code has opened and that nothing has ended since. -/
inductive Enters (scan : BodyScan) : List Char → BodyScan → Prop
  | code {cs : List Char} {d : Nat} : scan.run cs = some ⟨.code, d⟩ → Enters scan cs ⟨.code, d⟩
  | string {front text : List Char} {d : Nat} : scan.run front = some ⟨.code, d⟩ → '"' ∉ text →
      Enters scan (front ++ '"' :: text) ⟨.string, d⟩
  | comment {front text : List Char} {d : Nat} : scan.run front = some ⟨.code, d⟩ →
      (∀ c ∈ text, isLineEnd c = false) → Enters scan (front ++ '#' :: text) ⟨.comment, d⟩

theorem enters_of_run {scan last : BodyScan} {cs : List Char} (hscan : scan.place = .code)
    (h : scan.run cs = some last) : scan.Enters cs last := by
  induction cs using List.reverseRecOn generalizing last with
  | nil =>
    obtain ⟨place, d⟩ := scan
    cases hscan
    cases h
    exact .code rfl
  | append_singleton cs c ih =>
    obtain ⟨place, d⟩ := last
    have hlast := h
    rw [run_append, Option.bind_eq_some_iff] at hlast
    obtain ⟨mid, hmid, hlast⟩ := hlast
    have hstep : mid.step c = ⟨place, d⟩ := by
      rw [run] at hlast
      split at hlast
      · cases hlast
      · exact Option.some.inj hlast
    cases place with
    | code => exact .code h
    | string =>
      rcases step_eq_string_iff.mp hstep with ⟨rfl, rfl⟩ | ⟨rfl, hc⟩
      · exact .string hmid List.not_mem_nil
      · cases ih hmid with
        | @string front text _ hfront htext =>
          have hmem : '"' ∉ text ++ [c] := by simpa [htext] using Ne.symm hc
          simpa using Enters.string hfront hmem
    | comment =>
      rcases step_eq_comment_iff.mp hstep with ⟨rfl, rfl⟩ | ⟨rfl, hc⟩
      · exact .comment hmid (by simp)
      · cases ih hmid with
        | @comment front text _ hfront htext =>
          have hline : ∀ d ∈ text ++ [c], isLineEnd d = false := by
            simpa [or_imp, forall_and] using ⟨htext, hc⟩
          simpa using Enters.comment hfront hline

/-- A scan from code on comes to the brace that closes the last one open, or it gets stuck in a string
that is not ended, or it comes to the end of the text elsewhere. -/
theorem run_outcomes (d : Nat) (cs : List Char) :
    (∃ body rest, cs = body ++ '}' :: rest ∧ run ⟨.code, d + 1⟩ body = some ⟨.code, 1⟩) ∨
    (∃ text after e, cs = text ++ '"' :: after ∧
      run ⟨.code, d + 1⟩ text = some ⟨.code, e + 1⟩ ∧ '"' ∉ after) ∨
    ∃ last, run ⟨.code, d + 1⟩ cs = some last ∧ last.place ≠ .string := by
  cases hrun : run ⟨.code, d + 1⟩ cs with
  | none => exact .inl (exists_brace_of_run_eq_none (Nat.succ_pos d) hrun)
  | some last =>
    have hdepth := depth_pos_of_run (Nat.succ_pos d) hrun
    cases enters_of_run rfl hrun with
    | code _ => exact .inr (.inr ⟨_, rfl, nofun⟩)
    | @string text after e htext hafter =>
      obtain ⟨e, rfl⟩ := Nat.exists_eq_add_of_le' hdepth
      exact .inr (.inl ⟨text, after, e, rfl, htext, hafter⟩)
    | comment _ _ => exact .inr (.inr ⟨_, rfl, nofun⟩)

variable {d : Nat}

theorem run_open (d : Nat) (cs : List Char) :
    run ⟨.code, d⟩ ('{' :: cs) = run ⟨.code, d + 1⟩ cs := rfl

theorem run_close (d : Nat) (cs : List Char) :
    run ⟨.code, d + 2⟩ ('}' :: cs) = run ⟨.code, d + 1⟩ cs := rfl

theorem run_quote (d : Nat) (cs : List Char) :
    run ⟨.code, d + 1⟩ ('"' :: cs) = run ⟨.string, d + 1⟩ cs := rfl

theorem run_number_sign (d : Nat) (cs : List Char) :
    run ⟨.code, d + 1⟩ ('#' :: cs) = run ⟨.comment, d + 1⟩ cs := rfl

theorem run_plain {c : Char} (hc : c ∉ ['{', '}', '"', '#']) (d : Nat) (cs : List Char) :
    run ⟨.code, d + 1⟩ (c :: cs) = run ⟨.code, d + 1⟩ cs := by
  simp only [List.mem_cons, List.not_mem_nil, or_false, not_or] at hc
  simp [run, step, hc]

theorem run_in_string {text : List Char} (htext : '"' ∉ text) (d : Nat) :
    run ⟨.string, d + 1⟩ text = some ⟨.string, d + 1⟩ := by
  induction text with
  | nil => rfl
  | cons c text ih =>
    have hh := not_or.mp (List.mem_cons.not.mp htext)
    simpa [run, step, Ne.symm hh.1] using ih hh.2

theorem run_in_comment {text : List Char} (htext : ∀ c ∈ text, isLineEnd c = false) (d : Nat) :
    run ⟨.comment, d + 1⟩ text = some ⟨.comment, d + 1⟩ := by
  induction text with
  | nil => rfl
  | cons c text ih =>
    have hh := List.forall_mem_cons.mp htext
    simpa [run, step, hh.1] using ih hh.2

theorem run_string {text : List Char} (htext : '"' ∉ text) (d : Nat) (cs : List Char) :
    run ⟨.code, d + 1⟩ ('"' :: (text ++ '"' :: cs)) = run ⟨.code, d + 1⟩ cs := by
  rw [run_quote, run_append, run_in_string htext]
  rfl

theorem not_mem_of_isLineEnd {c : Char} (hc : isLineEnd c = true) :
    c ∉ ['{', '}', '"', '#'] := by
  simp only [isLineEnd, Bool.or_eq_true, beq_iff_eq] at hc
  rcases hc with rfl | rfl <;> decide

theorem run_line_end {c : Char} (hc : isLineEnd c = true) (d : Nat) (cs : List Char) :
    run ⟨.comment, d + 1⟩ (c :: cs) = run ⟨.code, d + 1⟩ cs := by
  simp [run, step, hc]

theorem run_comment {text : List Char} (htext : ∀ c ∈ text, isLineEnd c = false) {c : Char}
    (hc : isLineEnd c = true) (d : Nat) (cs : List Char) :
    run ⟨.code, d + 1⟩ ('#' :: (text ++ c :: cs)) = run ⟨.code, d + 1⟩ cs := by
  rw [run_number_sign, run_append, run_in_comment htext]
  exact run_line_end hc d cs

/-- A scan that starts in a string and ends outside has met the closing quote. -/
theorem exists_quote_of_run {cs : List Char} {d e : Nat}
    (h : run ⟨.string, d + 1⟩ cs = some ⟨.code, e⟩) :
    ∃ text rest, cs = text ++ '"' :: rest ∧ '"' ∉ text ∧
      run ⟨.code, d + 1⟩ rest = some ⟨.code, e⟩ := by
  by_cases hmem : '"' ∈ cs
  · obtain ⟨text, rest, rfl, htext⟩ := List.eq_append_cons_of_mem hmem
    refine ⟨text, rest, rfl, htext, ?_⟩
    rw [run_append, run_in_string htext] at h
    exact h
  · rw [run_in_string hmem] at h
    cases h

theorem exists_line_end_of_run {cs : List Char} {d e : Nat}
    (h : run ⟨.comment, d + 1⟩ cs = some ⟨.code, e⟩) :
    ∃ text c rest, cs = text ++ c :: rest ∧ (∀ c ∈ text, isLineEnd c = false) ∧
      isLineEnd c = true ∧ run ⟨.code, d + 1⟩ rest = some ⟨.code, e⟩ := by
  induction cs with
  | nil => cases h
  | cons c cs ih =>
    by_cases hc : isLineEnd c = true
    · rw [run_line_end hc] at h
      exact ⟨[], c, cs, rfl, by simp, hc, h⟩
    · have hstep : run ⟨.comment, d + 1⟩ (c :: cs) = run ⟨.comment, d + 1⟩ cs := by
        simp [run, step, hc]
      obtain ⟨text, e, rest, rfl, htext, he, hrest⟩ := ih (hstep ▸ h)
      exact ⟨c :: text, e, rest, rfl, List.forall_mem_cons.mpr ⟨by simpa using hc, htext⟩, he, hrest⟩

end BodyScan

open BodyScan

theorem Balanced.run_eq {cs : List Char} (h : Balanced cs) (d : Nat) :
    run ⟨.code, d + 1⟩ cs = some ⟨.code, d + 1⟩ := by
  induction h generalizing d with
  | nil => rfl
  | plain hc _ ih => rw [run_plain hc, ih]
  | string htext _ ih => rw [run_string htext, ih]
  | comment htext hc _ ih => rw [run_comment htext hc, ih]
  | group _ _ ihinner ihcs =>
    rw [run_open, run_append, ihinner (d + 1)]
    exact ihcs d

/-- A text that closes a number of braces and is balanced between them. -/
inductive Closes : Nat → List Char → Prop
  | done {cs : List Char} : Balanced cs → Closes 0 cs
  | close {d : Nat} {inner cs : List Char} :
      Balanced inner → Closes d cs → Closes (d + 1) (inner ++ '}' :: cs)

theorem Closes.prepend (front : List Char)
    (hfront : ∀ ⦃cs⦄, Balanced cs → Balanced (front ++ cs)) {d : Nat} {cs : List Char}
    (h : Closes d cs) : Closes d (front ++ cs) := by
  cases h with
  | done hcs => exact .done (hfront hcs)
  | close hinner hcs =>
    rw [← List.append_assoc]
    exact .close (hfront hinner) hcs

theorem closes_of_run {d : Nat} {cs : List Char}
    (h : run ⟨.code, d + 1⟩ cs = some ⟨.code, 1⟩) : Closes d cs := by
  induction hn : cs.length using Nat.strongRecOn generalizing d cs with
  | ind n ih =>
    cases cs with
    | nil =>
      cases h
      exact .done .nil
    | cons c cs =>
      rw [List.length_cons] at hn
      by_cases hplain : c ∉ ['{', '}', '"', '#']
      · rw [run_plain hplain] at h
        exact (ih _ (by omega) h rfl).prepend [c] fun _ => .plain hplain
      simp only [List.mem_cons, List.not_mem_nil, or_false, not_not] at hplain
      rcases hplain with rfl | rfl | rfl | rfl
      · -- The scan closes the group that is opened here first.
        cases ih _ (by omega) (run_open (d + 1) cs ▸ h) rfl with
        | @close _ inner rest hinner hrest =>
          have hh := hrest.prepend ('{' :: (inner ++ ['}'])) fun cs hcs => by
            simpa using Balanced.group hinner hcs
          simpa using hh
      · cases d with
        | zero => cases h
        | succ d => exact .close .nil (ih _ (by omega) (run_close d cs ▸ h) rfl)
      · obtain ⟨text, rest, rfl, htext, hrest⟩ := exists_quote_of_run (run_quote d cs ▸ h)
        have hlen : rest.length < n := by
          simp only [List.length_append, List.length_cons] at hn
          omega
        have hh := (ih _ hlen hrest rfl).prepend ('"' :: (text ++ ['"'])) fun cs hcs => by
          simpa using Balanced.string htext hcs
        simpa using hh
      · obtain ⟨text, e, rest, rfl, htext, he, hrest⟩ :=
          exists_line_end_of_run (run_number_sign d cs ▸ h)
        have hlen : rest.length < n := by
          simp only [List.length_append, List.length_cons] at hn
          omega
        have hh := (ih _ hlen hrest rfl).prepend ('#' :: (text ++ [e])) fun cs hcs => by
          simpa using Balanced.comment htext he hcs
        simpa using hh

theorem balanced_iff_run {cs : List Char} :
    Balanced cs ↔ run ⟨.code, 1⟩ cs = some ⟨.code, 1⟩ := by
  constructor
  · exact fun h => h.run_eq 0
  · intro h
    cases closes_of_run h with
    | done hcs => exact hcs

end QueryDoc
