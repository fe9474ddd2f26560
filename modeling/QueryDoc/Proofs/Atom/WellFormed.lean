import QueryDoc.Proofs.Atom.Spelling

/-! The values that can be spelled at all: they have no names but proper ones, no quotes in strings,
no infinities, and no key twice in an object. -/

namespace QueryDoc

namespace Atom

mutual

def isWellFormed : Atom → Bool
  | float x => x.isFinite
  | string text => !text.toList.contains '"'
  | enum name => isEnumName name.toList
  | list items => itemsWellFormed items
  | object fields => decide (fields.map Prod.fst).Nodup && fieldsWellFormed fields
  | _ => true

def itemsWellFormed : List Atom → Bool
  | [] => true
  | item :: items => item.isWellFormed && itemsWellFormed items

def fieldsWellFormed : List (String × Atom) → Bool
  | [] => true
  | (key, value) :: fields => isName key.toList && value.isWellFormed && fieldsWellFormed fields

end

theorem itemsWellFormed_iff {items : List Atom} :
    itemsWellFormed items = true ↔ ∀ item ∈ items, item.isWellFormed = true := by
  induction items with
  | nil => simp [itemsWellFormed]
  | cons item items ih => simp only [itemsWellFormed, Bool.and_eq_true, ih, List.forall_mem_cons]

theorem fieldsWellFormed_iff {fields : List (String × Atom)} :
    fieldsWellFormed fields = true ↔
      ∀ field ∈ fields, isName field.1.toList = true ∧ field.2.isWellFormed = true := by
  induction fields with
  | nil => simp [fieldsWellFormed]
  | cons field fields ih =>
    simp only [fieldsWellFormed, Bool.and_eq_true, ih, List.forall_mem_cons]

end Atom

theorem SpellsFields.forall_mem {value : List Char → Atom → List Char → Prop} {p : Atom → Prop}
    {input rest : List Char} {fields : List (String × Atom)}
    (h : SpellsFields value input fields rest)
    (hvalue : ∀ ⦃i a r⦄ ⦃key : String⦄, (key, a) ∈ fields → value i a r → p a) :
    ∀ field ∈ fields, isName field.1.toList = true ∧ p field.2 := by
  induction h with
  | nil => simp
  | cons hkey _ ha _ ih =>
    exact List.forall_mem_cons.mpr ⟨⟨hkey.isName, hvalue List.mem_cons_self ha⟩,
      ih fun _ _ _ _ hm => hvalue (List.mem_cons_of_mem _ hm)⟩

theorem SpellsAtom.isWellFormed {input rest : List Char} {a : Atom} (h : SpellsAtom input a rest) :
    a.isWellFormed = true := by
  induction hn : a.nesting using Nat.strongRecOn generalizing input rest a with
  | ind n ih =>
    cases h with
    | number _ _ _ _ hn =>
      cases hn with
      | int => rfl
      | float _ _ hfinite => exact hfinite
    | string _ htext => simpa [Atom.isWellFormed] using htext
    | boolTrue => rfl
    | boolFalse => rfl
    | null => rfl
    | enum _ henum => exact henum
    | @list _ _ _ _ items _ hitems _ =>
      refine Atom.itemsWellFormed_iff.mpr (hitems.forall_mem fun i a r hm h => ih _ ?_ h rfl)
      exact hn ▸ Atom.nesting_lt_of_mem hm
    | @object _ _ _ _ fields _ hfields hkeys _ =>
      simp only [Atom.isWellFormed, Bool.and_eq_true, decide_eq_true_eq]
      refine ⟨hkeys, Atom.fieldsWellFormed_iff.mpr
        (hfields.forall_mem fun i a r key hm h => ih _ ?_ h rfl)⟩
      exact hn ▸ Atom.nesting_lt_of_mem_fields hm

end QueryDoc
