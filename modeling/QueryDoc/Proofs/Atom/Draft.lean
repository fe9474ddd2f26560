import QueryDoc.Proofs.Atom.Spelling

/-! Values as they are written, before it is known whether a key occurs twice in an object. The grammar
of drafts is that of values without the rule that the keys of an object are distinct. Every key is kept
with its place, so that a draft tells which of its keys repeat others, in the order of the text. -/

namespace QueryDoc

/-- An occurrence of a key, whose place is given by the text from there on. -/
structure Key where
  name : String
  place : List Char

inductive Draft where
  | scalar (value : Atom)
  | list (items : List Draft)
  | object (fields : List (Key × Draft))

def Atom.isScalar : Atom → Bool
  | list _ | object _ => false
  | _ => true

/-- Fields with the places of their keys. A key may occur again. -/
inductive SpellsDraftFields (spells : List Char → Draft → List Char → Prop) :
    List Char → List (Key × Draft) → List Char → Prop
  | nil (rest : List Char) : SpellsDraftFields spells rest [] rest
  | cons {input colon start mid rest : List Char} {name : String} {t : Draft}
      {fields : List (Key × Draft)} :
      SpellsName input name colon → Ignored colon (':' :: start) → spells start t mid →
      SpellsDraftFields spells mid fields rest →
      SpellsDraftFields spells input ((⟨name, significant input⟩, t) :: fields) rest

inductive SpellsDraft : List Char → Draft → List Char → Prop
  | scalar {input rest : List Char} {a : Atom} :
      SpellsAtom input a rest → a.isScalar = true → SpellsDraft input (.scalar a) rest
  | list {input inner after rest : List Char} {items : List Draft} :
      Ignored input ('[' :: inner) → SpellsEach SpellsDraft inner items after →
      Ignored after (']' :: rest) → SpellsDraft input (.list items) rest
  | object {input inner after rest : List Char} {fields : List (Key × Draft)} :
      Ignored input ('{' :: inner) → SpellsDraftFields SpellsDraft inner fields after →
      Ignored after ('}' :: rest) → SpellsDraft input (.object fields) rest

/-- A key together with the first key of the same name in its object, which stands before it. -/
structure Repeat where
  key : Key
  first : Key

namespace Draft

theorem induction {motive : Draft → Prop} (scalar : ∀ a, motive (.scalar a))
    (list : ∀ items, (∀ t ∈ items, motive t) → motive (.list items))
    (object : ∀ fields, (∀ field ∈ fields, motive field.2) → motive (.object fields)) (t : Draft) :
    motive t := by
  refine @Draft.rec motive (fun items => ∀ t ∈ items, motive t)
    (fun fields => ∀ field ∈ fields, motive field.2) (fun field => motive field.2)
    scalar list object nofun ?_ nofun ?_ (fun _ _ h => h) t
  · exact fun _ _ h hs => List.forall_mem_cons.mpr ⟨h, hs⟩
  · exact fun _ _ h hs => List.forall_mem_cons.mpr ⟨h, hs⟩

mutual

/-- The value that is written, with the fields of each object in the order of the text. -/
def value : Draft → Atom
  | scalar a => a
  | list items => .list (itemValues items)
  | object fields => .object (fieldValues fields)

def itemValues : List Draft → List Atom
  | [] => []
  | t :: items => t.value :: itemValues items

def fieldValues : List (Key × Draft) → List (String × Atom)
  | [] => []
  | (key, t) :: fields => (key.name, t.value) :: fieldValues fields

end

theorem itemValues_eq_map (items : List Draft) : itemValues items = items.map value := by
  induction items with
  | nil => rfl
  | cons t items ih => rw [itemValues, ih, List.map_cons]

theorem fieldValues_eq_map (fields : List (Key × Draft)) :
    fieldValues fields = fields.map fun field => (field.1.name, field.2.value) := by
  induction fields with
  | nil => rfl
  | cons field fields ih => rw [fieldValues, ih, List.map_cons]

/-- The first of some keys that has the name of another one. -/
def firstOf? (earlier : List Key) (key : Key) : Option Key :=
  earlier.find? (·.name == key.name)

mutual

/-- The keys that repeat an earlier key of their object, in the order of the text. -/
def repeats : Draft → List Repeat
  | scalar _ => []
  | list items => itemRepeats items
  | object fields => fieldRepeats [] fields

def itemRepeats : List Draft → List Repeat
  | [] => []
  | t :: items => t.repeats ++ itemRepeats items

def fieldRepeats (earlier : List Key) : List (Key × Draft) → List Repeat
  | [] => []
  | (key, t) :: fields =>
    ((firstOf? earlier key).map (.mk key)).toList ++
      (t.repeats ++ fieldRepeats (earlier ++ [key]) fields)

end

/-- The fields of an object that stands somewhere in a draft. -/
inductive Holds : Draft → List (Key × Draft) → Prop
  | here (fields : List (Key × Draft)) : Holds (.object fields) fields
  | item {items : List Draft} {t : Draft} {fields : List (Key × Draft)} :
      t ∈ items → t.Holds fields → Holds (.list items) fields
  | field {others fields : List (Key × Draft)} {field : Key × Draft} :
      field ∈ others → field.2.Holds fields → Holds (.object others) fields

/-- In some object a key stands after others of which one has its name. Only keys of that very object
count. -/
def HasRepeat (t : Draft) (r : Repeat) : Prop :=
  ∃ fields before after u, t.Holds fields ∧ fields = before ++ (r.key, u) :: after ∧
    firstOf? (before.map Prod.fst) r.key = some r.first

theorem mem_itemRepeats_iff {items : List Draft} {r : Repeat} :
    r ∈ itemRepeats items ↔ ∃ t ∈ items, r ∈ t.repeats := by
  induction items with
  | nil => simp [itemRepeats]
  | cons t items ih => simp [itemRepeats, ih]

theorem mem_fieldRepeats_iff {earlier : List Key} {fields : List (Key × Draft)} {r : Repeat} :
    r ∈ fieldRepeats earlier fields ↔
      (∃ before after u, fields = before ++ (r.key, u) :: after ∧
        firstOf? (earlier ++ before.map Prod.fst) r.key = some r.first) ∨
      ∃ field ∈ fields, r ∈ field.2.repeats := by
  induction fields generalizing earlier with
  | nil => simp [fieldRepeats]
  | cons field fields ih =>
    obtain ⟨key, t⟩ := field
    rw [fieldRepeats, List.mem_append, List.mem_append, ih]
    constructor
    · rintro (hhere | hvalue | ⟨before, after, u, rfl, hfirst⟩ | ⟨field, hm, hvalue⟩)
      · simp only [Option.mem_toList, Option.map_eq_some_iff] at hhere
        obtain ⟨first, hfirst, rfl⟩ := hhere
        exact .inl ⟨[], fields, t, rfl, by simpa using hfirst⟩
      · exact .inr ⟨_, List.mem_cons_self, hvalue⟩
      · exact .inl ⟨(key, t) :: before, after, u, rfl, by simpa using hfirst⟩
      · exact .inr ⟨field, List.mem_cons_of_mem _ hm, hvalue⟩
    · rintro (⟨before, after, u, heq, hfirst⟩ | ⟨field, hm, hvalue⟩)
      · cases before with
        | nil =>
          obtain ⟨⟨rfl, rfl⟩, rfl⟩ := by simpa using heq
          have hh : firstOf? earlier r.key = some r.first := by simpa using hfirst
          exact .inl (by simp [hh])
        | cons other before =>
          obtain ⟨rfl, rfl⟩ := by simpa using heq
          exact .inr (.inr (.inl ⟨before, after, u, rfl, by simpa using hfirst⟩))
      · rcases List.mem_cons.mp hm with rfl | hm
        · exact .inr (.inl hvalue)
        · exact .inr (.inr (.inr ⟨field, hm, hvalue⟩))

theorem mem_repeats_iff {t : Draft} {r : Repeat} : r ∈ t.repeats ↔ t.HasRepeat r := by
  induction t using Draft.induction with
  | scalar a =>
    refine iff_of_false (by simp [repeats]) ?_
    rintro ⟨fields, before, after, u, hholds, -⟩
    cases hholds
  | list items ih =>
    rw [repeats, mem_itemRepeats_iff]
    constructor
    · rintro ⟨t, hm, hr⟩
      obtain ⟨fields, before, after, u, hholds, hsplit⟩ := (ih t hm).mp hr
      exact ⟨fields, before, after, u, .item hm hholds, hsplit⟩
    · rintro ⟨fields, before, after, u, hholds, hsplit⟩
      cases hholds with
      | item hm hholds => exact ⟨_, hm, (ih _ hm).mpr ⟨fields, before, after, u, hholds, hsplit⟩⟩
  | object others ih =>
    rw [repeats, mem_fieldRepeats_iff]
    constructor
    · rintro (⟨before, after, u, hsplit, hfirst⟩ | ⟨field, hm, hr⟩)
      · exact ⟨others, before, after, u, .here others, hsplit, hfirst⟩
      · obtain ⟨fields, before, after, u, hholds, hsplit⟩ := (ih field hm).mp hr
        exact ⟨fields, before, after, u, .field hm hholds, hsplit⟩
    · rintro ⟨fields, before, after, u, hholds, hsplit, hfirst⟩
      cases hholds with
      | here => exact .inl ⟨before, after, u, hsplit, hfirst⟩
      | field hm hholds =>
        exact .inr ⟨_, hm, (ih _ hm).mpr ⟨fields, before, after, u, hholds, hsplit, hfirst⟩⟩

/-- The keys of each object are distinct. -/
def HasDistinctKeys (t : Draft) : Prop :=
  ∀ fields, t.Holds fields → (fields.map (·.1.name)).Nodup

theorem nodup_names_iff {fields : List (Key × Draft)} :
    (fields.map (·.1.name)).Nodup ↔ ∀ before after key t, fields = before ++ (key, t) :: after →
      firstOf? (before.map Prod.fst) key = none := by
  constructor
  · rintro h before after key t rfl
    rw [firstOf?, List.find?_eq_none]
    rintro first hfirst hname
    obtain ⟨field, hfield, rfl⟩ := List.mem_map.mp hfirst
    rw [List.map_append, List.map_cons, List.nodup_append] at h
    exact h.2.2 _ (List.mem_map_of_mem hfield) _ List.mem_cons_self (beq_iff_eq.mp hname)
  · intro h
    induction fields using List.reverseRecOn with
    | nil => exact List.nodup_nil
    | append_singleton fields field ih =>
      have hlast := List.find?_eq_none.mp (h fields [] field.1 field.2 rfl)
      rw [List.map_append, List.map_singleton, List.nodup_append]
      refine ⟨ih fun before after key t heq => ?_, List.pairwise_singleton _ _, ?_⟩
      · exact h before (after ++ [field]) key t (by rw [heq, List.append_assoc, List.cons_append])
      · rintro name hname _ hm rfl
        obtain ⟨other, hother, rfl⟩ := List.mem_map.mp hname
        exact hlast _ (List.mem_map_of_mem hother) (beq_iff_eq.mpr (List.mem_singleton.mp hm))

theorem hasDistinctKeys_iff {t : Draft} : t.HasDistinctKeys ↔ ∀ r, ¬t.HasRepeat r := by
  constructor
  · rintro h r ⟨fields, before, after, u, hholds, hsplit, hfirst⟩
    have hnone := nodup_names_iff.mp (h fields hholds) before after r.key u hsplit
    exact Option.some_ne_none _ (hfirst.symm.trans hnone)
  · intro h fields hholds
    refine nodup_names_iff.mpr fun before after key u hsplit => ?_
    cases hfirst : firstOf? (before.map Prod.fst) key with
    | none => rfl
    | some first => exact absurd ⟨fields, before, after, u, hholds, hsplit, hfirst⟩ (h ⟨key, first⟩)

theorem repeats_eq_nil_iff {t : Draft} : t.repeats = [] ↔ t.HasDistinctKeys := by
  rw [hasDistinctKeys_iff, List.eq_nil_iff_forall_not_mem]
  exact forall_congr' fun r => not_congr mem_repeats_iff

end Draft

variable {input rest : List Char} {t : Draft}

theorem SpellsEach.map {α β : Type} {item : List Char → α → List Char → Prop}
    {item' : List Char → β → List Char → Prop} {f : α → β} {as : List α}
    (h : SpellsEach item input as rest)
    (hf : ∀ ⦃i a r⦄, a ∈ as → item i a r → item' i (f a) r) :
    SpellsEach item' input (as.map f) rest := by
  induction h with
  | nil => exact .nil _
  | cons ha _ ih =>
    exact .cons (hf List.mem_cons_self ha) (ih fun _ _ _ hm => hf (List.mem_cons_of_mem _ hm))

theorem SpellsDraftFields.values {spells : List Char → Draft → List Char → Prop}
    {value : List Char → Atom → List Char → Prop} {fields : List (Key × Draft)}
    (h : SpellsDraftFields spells input fields rest)
    (hvalue : ∀ ⦃i r⦄, ∀ field ∈ fields, spells i field.2 r → value i field.2.value r) :
    SpellsFields value input (Draft.fieldValues fields) rest := by
  induction h with
  | nil => exact .nil _
  | cons hname hcolon ht _ ih =>
    exact .cons hname hcolon (hvalue _ List.mem_cons_self ht)
      (ih fun _ _ _ hm => hvalue _ (List.mem_cons_of_mem _ hm))

namespace SpellsDraft

/-- A draft whose keys are distinct is a value. -/
theorem spellsAtom (h : SpellsDraft input t rest) (hkeys : t.HasDistinctKeys) :
    SpellsAtom input t.value rest := by
  induction t using Draft.induction generalizing input rest with
  | scalar a =>
    cases h with
    | scalar hspells => exact hspells
  | list items ih =>
    cases h with
    | list hopen hitems hclose =>
      refine .list hopen ?_ hclose
      rw [Draft.itemValues_eq_map]
      exact hitems.map fun _ _ _ hm hspells =>
        ih _ hm hspells fun fields hholds => hkeys fields (.item hm hholds)
  | object fields ih =>
    cases h with
    | object hopen hfields hclose =>
      refine .object hopen (hfields.values fun _ _ field hm hspells => ?_) ?_ hclose
      · exact ih field hm hspells fun fields hholds => hkeys fields (.field hm hholds)
      · rw [Draft.fieldValues_eq_map, List.map_map]
        exact hkeys fields (.here fields)

end SpellsDraft

theorem SpellsEach.exists_drafts {items : List Atom} (h : SpellsEach SpellsAtom input items rest)
    (hitem : ∀ ⦃i r⦄, ∀ a ∈ items, SpellsAtom i a r →
      ∃ t, SpellsDraft i t r ∧ t.HasDistinctKeys ∧ t.value = a) :
    ∃ ts, SpellsEach SpellsDraft input ts rest ∧ (∀ t ∈ ts, t.HasDistinctKeys) ∧
      Draft.itemValues ts = items := by
  induction h with
  | nil => exact ⟨[], .nil _, nofun, rfl⟩
  | cons ha _ ih =>
    obtain ⟨t, ht, hkeys, rfl⟩ := hitem _ List.mem_cons_self ha
    obtain ⟨ts, hts, hkeys', rfl⟩ := ih fun _ _ a hm => hitem a (List.mem_cons_of_mem _ hm)
    exact ⟨t :: ts, .cons ht hts, List.forall_mem_cons.mpr ⟨hkeys, hkeys'⟩, rfl⟩

theorem SpellsFields.exists_drafts {fields : List (String × Atom)}
    (h : SpellsFields SpellsAtom input fields rest)
    (hvalue : ∀ ⦃i r⦄, ∀ field ∈ fields, SpellsAtom i field.2 r →
      ∃ t, SpellsDraft i t r ∧ t.HasDistinctKeys ∧ t.value = field.2) :
    ∃ ts, SpellsDraftFields SpellsDraft input ts rest ∧ (∀ field ∈ ts, field.2.HasDistinctKeys) ∧
      Draft.fieldValues ts = fields := by
  induction h with
  | nil => exact ⟨[], .nil _, nofun, rfl⟩
  | cons hname hcolon ha _ ih =>
    obtain ⟨t, ht, hkeys, rfl⟩ := hvalue _ List.mem_cons_self ha
    obtain ⟨ts, hts, hkeys', rfl⟩ := ih fun _ _ field hm => hvalue field (List.mem_cons_of_mem _ hm)
    exact ⟨_, .cons hname hcolon ht hts, List.forall_mem_cons.mpr ⟨hkeys, hkeys'⟩, rfl⟩

namespace Draft

theorem hasDistinctKeys_scalar (a : Atom) : (scalar a).HasDistinctKeys := by
  rintro fields ⟨⟩

theorem hasDistinctKeys_list {items : List Draft} (h : ∀ t ∈ items, t.HasDistinctKeys) :
    (list items).HasDistinctKeys := by
  rintro fields (_ | ⟨hm, hholds⟩)
  exact h _ hm fields hholds

theorem hasDistinctKeys_object {fields : List (Key × Draft)} (hnames : (fields.map (·.1.name)).Nodup)
    (h : ∀ field ∈ fields, field.2.HasDistinctKeys) : (object fields).HasDistinctKeys := by
  rintro others (_ | _ | ⟨hm, hholds⟩)
  · exact hnames
  · exact h _ hm others hholds

end Draft

/-- The values are the drafts whose keys are distinct. -/
theorem spellsAtom_iff_draft {a : Atom} :
    SpellsAtom input a rest ↔ ∃ t, SpellsDraft input t rest ∧ t.HasDistinctKeys ∧ t.value = a := by
  refine ⟨fun h => ?_, fun ⟨t, ht, hkeys, ha⟩ => ha ▸ ht.spellsAtom hkeys⟩
  induction hn : a.nesting using Nat.strongRecOn generalizing input rest a with
  | ind n ih =>
    have hscalar : a.isScalar = true →
        ∃ t, SpellsDraft input t rest ∧ t.HasDistinctKeys ∧ t.value = a :=
      fun ha => ⟨.scalar a, .scalar h ha, Draft.hasDistinctKeys_scalar a, rfl⟩
    cases a with
    | list items =>
      cases h with
      | number _ _ _ _ hnumber => cases hnumber
      | list hopen hitems hclose =>
        obtain ⟨ts, hts, hkeys, rfl⟩ := hitems.exists_drafts fun _ _ item hm hspells =>
          ih item.nesting (hn ▸ Atom.nesting_lt_of_mem hm) hspells rfl
        exact ⟨.list ts, .list hopen hts hclose, Draft.hasDistinctKeys_list hkeys, rfl⟩
    | object fields =>
      cases h with
      | number _ _ _ _ hnumber => cases hnumber
      | object hopen hfields hnames hclose =>
        obtain ⟨ts, hts, hkeys, rfl⟩ := hfields.exists_drafts fun _ _ field hm hspells =>
          ih field.2.nesting (hn ▸ Atom.nesting_lt_of_mem_fields hm) hspells rfl
        rw [Draft.fieldValues_eq_map, List.map_map] at hnames
        exact ⟨.object ts, .object hopen hts hclose, Draft.hasDistinctKeys_object hnames hkeys, rfl⟩
    | _ => exact hscalar rfl

namespace SpellsDraft

theorem begins (h : SpellsDraft input t rest) :
    ∃ c cs, significant input = c :: cs ∧ SpellsAtom.first c = true := by
  cases h with
  | scalar hspells _ => exact hspells.begins
  | list hopen _ _ => exact ⟨_, _, (ignored_cons_iff (by decide)).mp hopen, by decide⟩
  | object hopen _ _ => exact ⟨_, _, (ignored_cons_iff (by decide)).mp hopen, by decide⟩

theorem length_lt (h : SpellsDraft input t rest) : rest.length < (significant input).length := by
  induction t using Draft.induction generalizing input rest with
  | scalar a =>
    cases h with
    | scalar hspells _ => exact hspells.length_lt
  | list items ih =>
    cases h with
    | @list _ inner after _ _ hopen hitems hclose =>
      have hle : after.length ≤ inner.length := hitems.length_le fun i _ _ hm hspells =>
        (ih _ hm hspells).le.trans (ignored_significant i).suffix.length_le
      have hlast := hclose.suffix.length_le
      rw [(ignored_cons_iff (by decide)).mp hopen]
      simp only [List.length_cons] at hlast ⊢
      omega
  | object fields ih =>
    cases h with
    | @object _ inner after _ _ hopen hfields hclose =>
      have hle : after.length ≤ inner.length := by
        have hlengths : SpellsFields (fun i _ r => r.length ≤ i.length) inner
            (Draft.fieldValues fields) after := hfields.values fun i _ field hm hspells =>
          (ih field hm hspells).le.trans (ignored_significant i).suffix.length_le
        exact hlengths.length_le fun _ _ _ _ _ h => h
      have hlast := hclose.suffix.length_le
      rw [(ignored_cons_iff (by decide)).mp hopen]
      simp only [List.length_cons] at hlast ⊢
      omega

end SpellsDraft

/-- The repeated keys stand one after the other, each between two places, which are given like those of
keys by how much of the text is left there. -/
structure InOrder (upper lower : Nat) (rs : List Repeat) : Prop where
  decreasing : rs.Pairwise fun r r' => r'.key.place.length < r.key.place.length
  within : ∀ r ∈ rs, lower < r.key.place.length ∧ r.key.place.length ≤ upper

namespace InOrder

variable {upper middle lower : Nat} {rs rs' : List Repeat}

theorem nil (upper lower : Nat) : InOrder upper lower [] :=
  ⟨.nil, nofun⟩

theorem mono {upper' lower' : Nat} (h : InOrder upper lower rs) (hupper : upper ≤ upper')
    (hlower : lower' ≤ lower) : InOrder upper' lower' rs :=
  ⟨h.decreasing, fun r hr => ⟨hlower.trans_lt (h.within r hr).1, (h.within r hr).2.trans hupper⟩⟩

theorem append (h : InOrder upper middle rs) (h' : InOrder middle lower rs') (hlower : lower ≤ middle)
    (hupper : middle ≤ upper) : InOrder upper lower (rs ++ rs') := by
  refine ⟨List.pairwise_append.mpr ⟨h.decreasing, h'.decreasing, fun r hr r' hr' => ?_⟩, ?_⟩
  · exact (h'.within r' hr').2.trans_lt (h.within r hr).1
  · intro r hr
    rcases List.mem_append.mp hr with hr | hr
    · exact (h.mono le_rfl hlower).within r hr
    · exact (h'.mono hupper le_rfl).within r hr

end InOrder

theorem SpellsEach.repeats_inOrder {items : List Draft} (h : SpellsEach SpellsDraft input items rest)
    (hitem : ∀ ⦃i r⦄, ∀ t ∈ items, SpellsDraft i t r →
      InOrder (significant i).length r.length t.repeats) :
    InOrder input.length rest.length (Draft.itemRepeats items) := by
  induction h with
  | nil => exact .nil _ _
  | @cons input mid rest t items ht hitems ih =>
    have hmid : mid.length ≤ input.length :=
      ht.length_lt.le.trans (ignored_significant input).suffix.length_le
    have hrest : rest.length ≤ mid.length := hitems.length_le fun i _ _ _ hspells =>
      hspells.length_lt.le.trans (ignored_significant i).suffix.length_le
    refine .append ?_ (ih fun _ _ t hm => hitem t (List.mem_cons_of_mem _ hm)) hrest hmid
    exact (hitem t List.mem_cons_self ht).mono (ignored_significant input).suffix.length_le le_rfl

theorem SpellsDraftFields.repeats_inOrder {fields : List (Key × Draft)}
    (h : SpellsDraftFields SpellsDraft input fields rest)
    (hvalue : ∀ ⦃i r⦄, ∀ field ∈ fields, SpellsDraft i field.2 r →
      InOrder (significant i).length r.length field.2.repeats) (earlier : List Key) :
    InOrder input.length rest.length (Draft.fieldRepeats earlier fields) ∧
      rest.length ≤ input.length := by
  induction h generalizing earlier with
  | nil => exact ⟨.nil _ _, le_rfl⟩
  | @cons input colon start mid rest name t fields hname hcolon ht hfields ih =>
    obtain ⟨hlater, hrest⟩ := ih (fun _ _ field hm => hvalue field (List.mem_cons_of_mem _ hm))
      (earlier ++ [⟨name, significant input⟩])
    have hinput := (ignored_significant input).suffix.length_le
    have hstart := hname.length_lt_of_colon hcolon
    have hsig := (ignored_significant start).suffix.length_le
    have hmid := ht.length_lt.trans_le hsig
    have hhere : InOrder input.length start.length
        ((Draft.firstOf? earlier ⟨name, significant input⟩).map
          (.mk ⟨name, significant input⟩)).toList := by
      cases Draft.firstOf? earlier ⟨name, significant input⟩ with
      | none => exact .nil _ _
      | some first =>
        refine ⟨List.pairwise_singleton _ _, fun r hr => ?_⟩
        obtain rfl := List.mem_singleton.mp hr
        exact ⟨hstart, hinput⟩
    have hinside := (hvalue _ List.mem_cons_self ht).mono hsig le_rfl
    refine ⟨hhere.append (hinside.append hlater hrest (by omega)) (by omega) (by omega), by omega⟩

/-- The repeats are listed in the order in which their keys stand in the text. -/
theorem SpellsDraft.repeats_inOrder (h : SpellsDraft input t rest) :
    InOrder (significant input).length rest.length t.repeats := by
  induction t using Draft.induction generalizing input rest with
  | scalar a => exact .nil _ _
  | list items ih =>
    cases h with
    | @list _ inner after _ _ hopen hitems hclose =>
      have hafter := hclose.suffix.length_le
      rw [(ignored_cons_iff (by decide)).mp hopen, List.length_cons]
      rw [List.length_cons] at hafter
      exact (hitems.repeats_inOrder fun _ _ t hm => ih t hm).mono (by omega) (by omega)
  | object fields ih =>
    cases h with
    | @object _ inner after _ _ hopen hfields hclose =>
      have hafter := hclose.suffix.length_le
      rw [(ignored_cons_iff (by decide)).mp hopen, List.length_cons]
      rw [List.length_cons] at hafter
      exact (hfields.repeats_inOrder (fun _ _ field hm => ih field hm) []).1.mono (by omega) (by omega)

end QueryDoc
