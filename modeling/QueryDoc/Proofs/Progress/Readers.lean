import QueryDoc.Proofs.Counted.Calls

/-! Reading makes progress. No reader goes back, whatever comes of it, and nothing is read without passing
over a character: the first one decides which kind of phrase is read, and it belongs to that phrase. -/

namespace QueryDoc

theorem Scanner.offset_lt_of_length_lt {s : Scanner} {n : Nat}
    (h : (s.advanceBy n).rest.length < s.rest.length) :
    s.position.offset < (s.advanceBy n).position.offset := by
  have hpassed : s.rest.take n ≠ [] := by
    intro he
    have hsplit := List.take_append_drop n s.rest
    rw [he, List.nil_append] at hsplit
    rw [rest_advanceBy, hsplit] at h
    exact Nat.lt_irrefl _ h
  have hbytes := mt byteLength_eq_zero_iff.mp hpassed
  rw [offset_advanceBy]
  omega

namespace ReadM

variable {α β : Type} {act : ReadM α} {f : α → ReadM β} {s : Scanner}

/-- From no place does the action go back, and it passes over a byte at least if it answers. -/
def Progresses (act : ReadM α) : Prop :=
  ∀ s, s.position.offset ≤ (outcome act s).2.position.offset ∧
    ∀ a t, act s = .ok a t → s.position.offset < t.position.offset

theorem Advances.offset_le (h : Advances act s) :
    s.position.offset ≤ (outcome act s).2.position.offset := by
  obtain ⟨n, hn⟩ := h
  rw [hn, Scanner.offset_advanceBy]
  exact Nat.le_add_right _ _

namespace Consumes

theorem progresses (h : Consumes act) (hadvances : ∀ {s}, Advances act s) : Progresses act := by
  refine fun s => ⟨hadvances.offset_le, fun a t hact => ?_⟩
  obtain ⟨n, rfl⟩ := hadvances.exists_of_ok hact
  exact Scanner.offset_lt_of_length_lt (h hact)

theorem failWith (error : Scanner → ReadError) : Consumes (failWith error : ReadM α) :=
  fun _ _ _ h => (failWith_ok_iff.mp h).elim

theorem bind (h : Consumes act) (hf : ∀ a s, Advances (f a) s) : Consumes (act >>= f) := by
  intro s b u hb
  obtain ⟨a, t, ha, hb⟩ := bind_ok_iff.mp hb
  exact ((hf a t).length_le hb).trans_lt (h ha)

theorem after (h : ∀ {s}, Advances act s) (hf : ∀ a, Consumes (f a)) : Consumes (act >>= f) := by
  intro s b u hb
  obtain ⟨a, t, ha, hb⟩ := bind_ok_iff.mp hb
  exact (hf a hb).trans_le (h.length_le ha)

end Consumes

end ReadM

open ReadM

variable {limit levels : Nat} {s : Scanner}

namespace Token

theorem literal_consumes {text : String} (htext : text ≠ "") : Consumes (literal text) := by
  intro s span t h
  have hle := (ignored_significant s.rest).suffix.length_le
  have hpos := List.length_pos_of_ne_nil (mt String.toList_eq_nil_iff.mp htext)
  rw [literal_ok h, List.length_append] at hle
  omega

theorem name_consumes : Consumes name := by
  intro s n t h
  exact (name_ok h).length_lt.trans_le (ignored_significant s.rest).suffix.length_le

end Token

namespace SelectionSet

theorem read_consumes : Consumes read := by
  intro s set t h
  obtain ⟨body, hspelled, -⟩ := read_ok h
  have hle := hspelled.suffix.length_le
  simp only [List.length_cons, List.length_append] at hle
  omega

theorem read_progresses : Progresses read :=
  read_consumes.progresses read_advances

end SelectionSet

section

variable {type : ReadM TypeRef} {value : ReadM Atom} (htype : ∀ s, Advances type s)
  (hvalue : ∀ s, Advances value s)
include htype hvalue

namespace VariableDefinition

theorem readBy_advances : Advances (readBy type value) s :=
  (readBy_related Advances.composes ⟨rfl, htype⟩ ⟨rfl, hvalue⟩).2 s

/-- The dollar sign is read first. -/
theorem readBy_consumes : Consumes (readBy type value) := by
  refine .bind (Token.literal_consumes (by decide)) fun _ _ => .bind Token.name_advances fun _ _ => ?_
  refine .bind (.withHelp (Token.literal_advances _)) fun _ _ => .bind (htype _) fun _ t => ?_
  refine .bind ?_ fun _ _ => refuseDirectives_advances _
  exact (readDefaultBy_related Advances.composes ⟨rfl, hvalue⟩).2 t

theorem readBy_progresses : Progresses (readBy type value) :=
  (readBy_consumes htype hvalue).progresses (readBy_advances htype hvalue)

end VariableDefinition

namespace Operation

theorem readBy_advances : Advances (readBy type value) s :=
  (readBy_related Advances.composes ⟨rfl, htype⟩ ⟨rfl, hvalue⟩).2 s

omit htype hvalue in
theorem readEnd_consumes (kind : OperationKind) (name : Option String)
    (vs : List VariableDefinition) : Consumes (readEnd kind name vs) := by
  refine .after Token.peek?_advances fun c => ?_
  split
  · exact .failWith _
  · exact .bind SelectionSet.read_consumes fun _ _ => .pure _

/-- Keyword, name and variables may all be missing, but not the selection set. -/
theorem readBy_consumes : Consumes (readBy type value) := by
  refine .after (Token.peek_advances _) fun _ => .after readKind_advances fun kind => ?_
  refine .after Token.name?_advances fun name => .after ?_ fun vs => readEnd_consumes kind name vs
  exact (readVariablesBy_related Advances.composes ⟨rfl, htype⟩ ⟨rfl, hvalue⟩).2 _

theorem readBy_progresses : Progresses (readBy type value) :=
  (readBy_consumes htype hvalue).progresses (readBy_advances htype hvalue)

end Operation

end

theorem TypeRef.readWithin_progresses : Progresses (readWithin limit levels) :=
  (readWithin_consumes limit levels).progresses readWithin_advances

theorem Atom.readWithin_progresses : Progresses (readWithin limit levels) :=
  (readWithin_consumes limit levels).progresses readWithin_advances

namespace Call

theorem act_advances (limit : Nat) (call : Call) : Advances (call.act limit) s := by
  obtain ⟨v, n, -, hact, -⟩ := call.counted_tracks limit s
  exact ⟨n, by rw [hact]⟩

/-- The calls that look for a phrase which cannot be empty. -/
theorem act_progresses (limit : Nat) :
    ∀ call ∈ [name, value, type, variableDefinition, operation], Progresses (call.act limit) := by
  have htype : ∀ s, Advances (TypeRef.read limit) s := fun _ => TypeRef.readWithin_advances
  have hvalue : ∀ s, Advances (Atom.read limit) s := fun _ => Atom.readWithin_advances
  simp only [List.forall_mem_cons, act]
  refine ⟨Token.name_consumes.progresses Token.name_advances, Atom.readWithin_progresses,
    TypeRef.readWithin_progresses, ?_, ?_, by simp⟩
  · rw [VariableDefinition.read_eq_by]
    exact VariableDefinition.readBy_progresses htype hvalue
  · rw [Operation.read_eq_by]
    exact Operation.readBy_progresses htype hvalue

end Call

end QueryDoc
