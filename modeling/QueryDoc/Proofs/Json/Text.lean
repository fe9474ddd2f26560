import QueryDoc.Proofs.Grammar.Separated
import QueryDoc.Proofs.Json.Token

/-! The text of a JSON value tells which value it is, whether it stands on one line or is indented. The
first character tells the kind of value, and whatever may come next in a text ends it. -/

namespace QueryDoc.Json

theorem induction {motive : Json → Prop} (null : motive null) (bool : ∀ b, motive (bool b))
    (int : ∀ n, motive (int n)) (float : ∀ x, motive (float x)) (string : ∀ text, motive (string text))
    (array : ∀ items, (∀ item ∈ items, motive item) → motive (array items))
    (object : ∀ members, (∀ member ∈ members, motive member.2) → motive (object members))
    (j : Json) : motive j := by
  refine @Json.rec motive (fun items => ∀ item ∈ items, motive item)
    (fun members => ∀ member ∈ members, motive member.2) (fun member => motive member.2)
    null bool int float string array object nofun ?_ nofun ?_ (fun _ _ h => h) j
  · exact fun _ _ h hs => List.forall_mem_cons.mpr ⟨h, hs⟩
  · exact fun _ _ h hs => List.forall_mem_cons.mpr ⟨h, hs⟩

mutual

/-- There is no infinity in the value, nor anything that is not a number. -/
def isFinite : Json → Bool
  | float x => x.isFinite
  | array items => itemsFinite items
  | object members => membersFinite members
  | _ => true

def itemsFinite : List Json → Bool
  | [] => true
  | item :: items => item.isFinite && itemsFinite items

def membersFinite : List (String × Json) → Bool
  | [] => true
  | (_, value) :: members => value.isFinite && membersFinite members

end

theorem itemsFinite_iff {items : List Json} :
    itemsFinite items = true ↔ ∀ item ∈ items, item.isFinite = true := by
  induction items with
  | nil => simp [itemsFinite]
  | cons item items ih => simp only [itemsFinite, Bool.and_eq_true, ih, List.forall_mem_cons]

theorem membersFinite_iff {members : List (String × Json)} :
    membersFinite members = true ↔ ∀ member ∈ members, member.2.isFinite = true := by
  induction members with
  | nil => simp [membersFinite]
  | cons member members ih => simp only [membersFinite, Bool.and_eq_true, ih, List.forall_mem_cons]

inductive Kind where
  | null
  | bool
  | number
  | string
  | array
  | object

def kind : Json → Kind
  | null => .null
  | bool _ => .bool
  | int _ | float _ => .number
  | string _ => .string
  | array _ => .array
  | object _ => .object

/-- The kind of the value that a character begins. -/
def kindOf (c : Char) : Kind :=
  if c = 'n' then .null
  else if c = 't' ∨ c = 'f' then .bool
  else if c = '"' then .string
  else if c = '[' then .array
  else if c = '{' then .object
  else .number

theorem kindOf_of_isNumberStart {c : Char} (hc : isNumberStart c = true) : kindOf c = .number := by
  have hne : ∀ d, isNumberStart d = false → c ≠ d := by
    rintro d hd rfl
    exact Bool.false_ne_true (hd.symm.trans hc)
  rw [kindOf, if_neg (hne 'n' (by decide)), if_neg (not_or.mpr ⟨hne 't' (by decide), hne 'f' (by decide)⟩),
    if_neg (hne '"' (by decide)), if_neg (hne '[' (by decide)), if_neg (hne '\x7b' (by decide))]

/-- What stands in a text besides its tokens. A line that is begun for an item or a bracket is a new one,
unless all stand on one line. -/
structure Layout where
  lineStart : Nat → List Char
  afterColon : List Char
  newline : ∀ level, ∀ c ∈ (lineStart level).head?, c = '\n'

namespace Layout

variable (L : Layout)

def enclosed (opening closing : Char) (level : Nat) (texts : List (List Char)) : List Char :=
  if texts.isEmpty then [opening, closing]
  else
    opening :: L.lineStart (level + 1) ++ separated (',' :: L.lineStart (level + 1)) texts ++
      L.lineStart level ++ [closing]

def memberText (write : Json → List Char) (member : String × Json) : List Char :=
  stringText member.1 ++ ':' :: (L.afterColon ++ write member.2)

theorem enclosed_nil_append (opening closing : Char) (level : Nat) (rest : List Char) :
    L.enclosed opening closing level [] ++ rest = opening :: closing :: rest :=
  rfl

theorem enclosed_cons_append (opening closing : Char) (level : Nat) (text : List Char)
    (texts : List (List Char)) (rest : List Char) :
    L.enclosed opening closing level (text :: texts) ++ rest =
      opening :: (L.lineStart (level + 1) ++ (text ++
        (texts.flatMap ((',' :: L.lineStart (level + 1)) ++ ·) ++
          ((L.lineStart level ++ [closing]) ++ rest)))) := by
  simp only [enclosed, List.isEmpty_cons, Bool.false_eq_true, if_false, separated_cons,
    List.append_assoc, List.cons_append]

/-- Values are written in this layout, by the level at which they stand. -/
structure Writes (write : Nat → Json → List Char) : Prop where
  null : ∀ level, write level .null = "null".toList
  bool : ∀ level b, write level (.bool b) = if b then "true".toList else "false".toList
  int : ∀ level n, write level (.int n) = intText n
  float : ∀ level x, write level (.float x) = floatText x
  string : ∀ level text, write level (.string text) = stringText text
  array : ∀ level items, write level (.array items) =
    L.enclosed '[' ']' level (items.map (write (level + 1)))
  object : ∀ level members, write level (.object members) =
    L.enclosed '{' '}' level (members.map (L.memberText (write (level + 1))))

end Layout

def compactLayout : Layout where
  lineStart _ := []
  afterColon := []
  newline := nofun

def indentedLayout : Layout where
  lineStart := Json.newline
  afterColon := [' ']
  newline _ _ hc := (Option.some.inj hc).symm

theorem compactItems_eq_map (items : List Json) : compactItems items = items.map compact := by
  induction items with
  | nil => rfl
  | cons item items ih => rw [compactItems, ih, List.map_cons]

theorem compactMembers_eq_map (members : List (String × Json)) :
    compactMembers members = members.map (compactLayout.memberText compact) := by
  induction members with
  | nil => rfl
  | cons member members ih =>
    rw [compactMembers, ih, List.map_cons]
    rfl

theorem enclosed_compact (opening closing : Char) (level : Nat) (texts : List (List Char)) :
    compactLayout.enclosed opening closing level texts =
      opening :: [','].intercalate texts ++ [closing] := by
  cases texts with
  | nil => rfl
  | cons text texts => simp [Layout.enclosed, compactLayout, separated]

theorem compact_writes : compactLayout.Writes fun _ => compact where
  null _ := by rw [compact]
  bool _ b := by cases b <;> simp [compact]
  int _ _ := by rw [compact]
  float _ _ := by rw [compact]
  string _ _ := by rw [compact]
  array _ items := by rw [compact, compactItems_eq_map, enclosed_compact]
  object _ members := by rw [compact, compactMembers_eq_map, enclosed_compact]

theorem indentedItems_eq_map (level : Nat) (items : List Json) :
    indentedItems level items = items.map (indented level) := by
  induction items with
  | nil => rfl
  | cons item items ih => rw [indentedItems, ih, List.map_cons]

theorem indentedMembers_eq_map (level : Nat) (members : List (String × Json)) :
    indentedMembers level members = members.map (indentedLayout.memberText (indented level)) := by
  induction members with
  | nil => rfl
  | cons member members ih =>
    rw [indentedMembers, ih, List.map_cons]
    rfl

theorem indented_writes : indentedLayout.Writes indented where
  null _ := by rw [indented, compact]
  bool _ b := by cases b <;> simp [indented, compact]
  int _ _ := by rw [indented, compact]
  float _ _ := by rw [indented, compact]
  string _ _ := by rw [indented, compact]
  array _ items := by
    rw [indented, indentedItems_eq_map]
    rfl
  object _ members := by
    rw [indented, indentedMembers_eq_map]
    rfl

section Delimits

variable {α : Type} {write : α → List Char} {good : α → Prop}

/-- Where the text of a value is followed by something that ends a number, no other value has a text
that goes on in the same way. -/
def Delimits (write : α → List Char) (good : α → Prop) (a : α) : Prop :=
  ∀ ⦃b rest rest'⦄, good b → EndsRun isNumberContinue rest → EndsRun isNumberContinue rest' →
    write a ++ rest = write b ++ rest' → a = b ∧ rest = rest'

/-- What closes a list of items ends the last one, and no other item follows. -/
def Closes (close : List Char) : Prop :=
  ∃ c cs, close = c :: cs ∧ c ≠ ',' ∧ isNumberContinue c = false

theorem Closes.endsRun {close : List Char} (h : Closes close) (separator : List Char)
    (texts : List (List Char)) (rest : List Char) : EndsRun isNumberContinue
      (texts.flatMap ((',' :: separator) ++ ·) ++ (close ++ rest)) := by
  cases texts with
  | nil =>
    obtain ⟨c, cs, rfl, -, hc⟩ := h
    exact endsRun_cons.mpr hc
  | cons text texts => exact endsRun_cons.mpr (by decide)

theorem flatMap_append_inj {separator close rest rest' : List Char} (hclose : Closes close)
    {as bs : List α} (has : ∀ a ∈ as, Delimits write good a) (hbs : ∀ b ∈ bs, good b)
    (h : (as.map write).flatMap ((',' :: separator) ++ ·) ++ (close ++ rest) =
      (bs.map write).flatMap ((',' :: separator) ++ ·) ++ (close ++ rest')) :
    as = bs ∧ rest = rest' := by
  induction as generalizing bs with
  | nil =>
    cases bs with
    | nil => exact ⟨rfl, List.append_cancel_left h⟩
    | cons b bs =>
      obtain ⟨c, cs, rfl, hc, -⟩ := hclose
      exact absurd (List.cons.inj h).1 hc
  | cons a as ih =>
    cases bs with
    | nil =>
      obtain ⟨c, cs, rfl, hc, -⟩ := hclose
      exact absurd (List.cons.inj h).1.symm hc
    | cons b bs =>
      rw [List.map_cons, List.map_cons, List.flatMap_cons, List.flatMap_cons, List.append_assoc,
        List.append_assoc, List.append_assoc, List.append_assoc] at h
      have hh := List.append_cancel_left h
      obtain ⟨rfl, hrest⟩ := has a List.mem_cons_self (hbs b List.mem_cons_self)
        (hclose.endsRun _ _ _) (hclose.endsRun _ _ _) hh
      obtain ⟨rfl, hlast⟩ := ih (fun a hm => has a (List.mem_cons_of_mem _ hm))
        (fun b hm => hbs b (List.mem_cons_of_mem _ hm)) hrest
      exact ⟨rfl, hlast⟩

theorem enclosed_append_inj (L : Layout) {opening closing : Char} {level : Nat}
    (hcomma : closing ≠ ',') (hline : closing ≠ '\n') (hends : isNumberContinue closing = false)
    (hbegins : ∀ a, good a → ∃ c cs, write a = c :: cs ∧ c ≠ closing) {as bs : List α}
    (has : ∀ a ∈ as, good a ∧ Delimits write good a) (hbs : ∀ b ∈ bs, good b)
    {rest rest' : List Char}
    (h : L.enclosed opening closing level (as.map write) ++ rest =
      L.enclosed opening closing level (bs.map write) ++ rest') : as = bs ∧ rest = rest' := by
  have hclose : Closes (L.lineStart level ++ [closing]) := by
    cases hstart : L.lineStart level with
    | nil => exact ⟨closing, [], rfl, hcomma, hends⟩
    | cons c cs =>
      obtain rfl := L.newline level c (by rw [hstart]; rfl)
      exact ⟨'\n', cs ++ [closing], rfl, by decide, by decide⟩
  -- Without any item the closing bracket comes at once, but no item begins with it.
  have hfirst : ∀ a, good a → ∀ more rest,
      closing :: rest ≠ L.lineStart (level + 1) ++ (write a ++ more) := by
    intro a ha more rest heq
    obtain ⟨c, cs, hc, hne⟩ := hbegins a ha
    cases hstart : L.lineStart (level + 1) with
    | nil =>
      rw [hstart, hc] at heq
      exact hne (List.cons.inj heq).1.symm
    | cons d ds =>
      obtain rfl := L.newline (level + 1) d (by rw [hstart]; rfl)
      rw [hstart] at heq
      exact hline (List.cons.inj heq).1
  cases as with
  | nil =>
    cases bs with
    | nil => exact ⟨rfl, List.append_cancel_left h⟩
    | cons b bs =>
      rw [List.map_nil, List.map_cons, L.enclosed_nil_append, L.enclosed_cons_append] at h
      exact absurd (List.cons.inj h).2 (hfirst b (hbs b List.mem_cons_self) _ _)
  | cons a as =>
    cases bs with
    | nil =>
      rw [List.map_nil, List.map_cons, L.enclosed_nil_append, L.enclosed_cons_append] at h
      exact absurd (List.cons.inj h).2.symm (hfirst a (has a List.mem_cons_self).1 _ _)
    | cons b bs =>
      rw [List.map_cons, List.map_cons, L.enclosed_cons_append, L.enclosed_cons_append] at h
      have hh := List.append_cancel_left (List.cons.inj h).2
      obtain ⟨rfl, hrest⟩ := (has a List.mem_cons_self).2 (hbs b List.mem_cons_self)
        (hclose.endsRun _ _ _) (hclose.endsRun _ _ _) hh
      obtain ⟨rfl, hlast⟩ := flatMap_append_inj hclose
        (fun a hm => (has a (List.mem_cons_of_mem _ hm)).2)
        (fun b hm => hbs b (List.mem_cons_of_mem _ hm)) hrest
      exact ⟨rfl, hlast⟩

end Delimits

namespace Layout.Writes

variable {L : Layout} {write : Nat → Json → List Char}

theorem begins (hw : L.Writes write) {j : Json} (hj : j.isFinite = true) (level : Nat) :
    ∃ c cs, write level j = c :: cs ∧ kindOf c = j.kind ∧ c ≠ ']' := by
  have hnumber : ∀ c, isNumberStart c = true → c ≠ ']' := by
    rintro c hc rfl
    cases hc
  have henclosed : ∀ opening closing texts, ∃ cs,
      L.enclosed opening closing level texts = opening :: cs := by
    intro opening closing texts
    rw [enclosed]
    split
    · exact ⟨_, rfl⟩
    · exact ⟨_, rfl⟩
  cases j with
  | null => exact ⟨'n', _, hw.null level, rfl, by decide⟩
  | bool b =>
    rw [hw.bool]
    cases b with
    | true => exact ⟨'t', _, rfl, rfl, by decide⟩
    | false => exact ⟨'f', _, rfl, rfl, by decide⟩
  | int n =>
    obtain ⟨c, cs, hcs, hc⟩ := (isNumber_intText n).begins
    exact ⟨c, cs, (hw.int level n).trans hcs, kindOf_of_isNumberStart hc, hnumber c hc⟩
  | float x =>
    obtain ⟨c, cs, hcs, hc⟩ := (isNumber_floatText hj).begins
    exact ⟨c, cs, (hw.float level x).trans hcs, kindOf_of_isNumberStart hc, hnumber c hc⟩
  | string text => exact ⟨'"', _, hw.string level text, rfl, by decide⟩
  | array items =>
    obtain ⟨cs, hcs⟩ := henclosed '[' ']' (items.map (write (level + 1)))
    exact ⟨'[', cs, (hw.array level items).trans hcs, rfl, by decide⟩
  | object members =>
    obtain ⟨cs, hcs⟩ := henclosed '{' '}' (members.map (L.memberText (write (level + 1))))
    exact ⟨'{', cs, (hw.object level members).trans hcs, rfl, by decide⟩

theorem kind_eq (hw : L.Writes write) {j k : Json} (hj : j.isFinite = true) (hk : k.isFinite = true)
    {level : Nat} {rest rest' : List Char} (h : write level j ++ rest = write level k ++ rest') :
    j.kind = k.kind := by
  obtain ⟨c, cs, hc, hjkind, -⟩ := hw.begins hj level
  obtain ⟨d, ds, hd, hkkind, -⟩ := hw.begins hk level
  rw [hc, hd] at h
  rw [← hjkind, ← hkkind, (List.cons.inj h).1]

theorem number (hw : L.Writes write) {j : Json} (hj : j.isFinite = true) (hkind : j.kind = .number)
    (level : Nat) : IsNumber (write level j) ∧ number? (write level j) = some j := by
  cases j with
  | int n =>
    rw [hw.int]
    exact ⟨isNumber_intText n, number?_intText n⟩
  | float x =>
    rw [hw.float]
    exact ⟨isNumber_floatText hj, number?_floatText hj⟩
  | _ => cases hkind

theorem number_append_inj (hw : L.Writes write) {j k : Json} (hj : j.isFinite = true)
    (hk : k.isFinite = true) (hjkind : j.kind = .number) (hkkind : k.kind = .number) {level : Nat}
    {rest rest' : List Char} (hrest : EndsRun isNumberContinue rest)
    (hrest' : EndsRun isNumberContinue rest') (h : write level j ++ rest = write level k ++ rest') :
    j = k ∧ rest = rest' := by
  obtain ⟨hjtext, hjnumber⟩ := hw.number hj hjkind level
  obtain ⟨hktext, hknumber⟩ := hw.number hk hkkind level
  obtain ⟨htext, hlast⟩ := hjtext.append_inj hktext hrest hrest' h
  rw [htext, hknumber] at hjnumber
  exact ⟨(Option.some.inj hjnumber).symm, hlast⟩

theorem member_delimits {write : Json → List Char} {member : String × Json}
    (h : Delimits write (·.isFinite = true) member.2) :
    Delimits (L.memberText write) (·.2.isFinite = true) member := by
  intro other rest rest' hother hrest hrest' heq
  simp only [memberText, List.append_assoc, List.cons_append] at heq
  obtain ⟨hkey, hafter⟩ := stringText_append_inj heq
  obtain ⟨hvalue, hlast⟩ :=
    h hother hrest hrest' (List.append_cancel_left (List.cons.inj hafter).2)
  exact ⟨Prod.ext hkey hvalue, hlast⟩

/-- A text is the text of one value only, whatever comes after it in a larger text. -/
theorem delimits (hw : L.Writes write) {j : Json} (hj : j.isFinite = true) (level : Nat) :
    Delimits (write level) (·.isFinite = true) j := by
  intro k rest rest' hk hrest hrest' h
  have hkind := hw.kind_eq hj hk h
  induction j using Json.induction generalizing k level rest rest' with
  | null =>
    cases k with
    | null => exact ⟨rfl, List.append_cancel_left h⟩
    | _ => cases hkind
  | bool b =>
    cases k with
    | bool b' =>
      rw [hw.bool, hw.bool] at h
      cases b <;> cases b' <;> first | exact ⟨rfl, List.append_cancel_left h⟩ | cases h
    | _ => cases hkind
  -- Numbers do not show their own end, so they are told by what may come after them.
  | int n => exact hw.number_append_inj hj hk rfl hkind.symm hrest hrest' h
  | float x => exact hw.number_append_inj hj hk rfl hkind.symm hrest hrest' h
  | string text =>
    cases k with
    | string text' =>
      rw [hw.string, hw.string] at h
      obtain ⟨rfl, hlast⟩ := stringText_append_inj h
      exact ⟨rfl, hlast⟩
    | _ => cases hkind
  | array items ih =>
    cases k with
    | array items' =>
      rw [hw.array, hw.array] at h
      have hbegins : ∀ item, item.isFinite = true →
          ∃ c cs, write (level + 1) item = c :: cs ∧ c ≠ ']' := by
        intro item hfinite
        obtain ⟨c, cs, hc, -, hne⟩ := hw.begins hfinite (level + 1)
        exact ⟨c, cs, hc, hne⟩
      have hitems : ∀ item ∈ items, item.isFinite = true ∧
          Delimits (write (level + 1)) (·.isFinite = true) item := by
        intro item hm
        have hfinite := itemsFinite_iff.mp hj item hm
        exact ⟨hfinite, fun k rest rest' hk hrest hrest' h =>
          ih item hm hfinite (level + 1) hk hrest hrest' h (hw.kind_eq hfinite hk h)⟩
      obtain ⟨rfl, hlast⟩ := enclosed_append_inj L (by decide) (by decide) (by decide) hbegins hitems
        (itemsFinite_iff.mp hk) h
      exact ⟨rfl, hlast⟩
    | _ => cases hkind
  | object members ih =>
    cases k with
    | object members' =>
      rw [hw.object, hw.object] at h
      have hmembers : ∀ member ∈ members, member.2.isFinite = true ∧
          Delimits (L.memberText (write (level + 1))) (·.2.isFinite = true) member := by
        intro member hm
        have hfinite := membersFinite_iff.mp hj member hm
        exact ⟨hfinite, member_delimits fun k rest rest' hk hrest hrest' h =>
          ih member hm hfinite (level + 1) hk hrest hrest' h (hw.kind_eq hfinite hk h)⟩
      obtain ⟨rfl, hlast⟩ := enclosed_append_inj L (by decide) (by decide) (by decide)
        (fun member _ => ⟨'"', _, rfl, by decide⟩) hmembers (membersFinite_iff.mp hk) h
      exact ⟨rfl, hlast⟩
    | _ => cases hkind

end Layout.Writes

/-- Values whose texts are equal are the same, object keys in the same order and floating point numbers
with the same bits. -/
theorem compact_inj {j k : Json} (hj : j.isFinite = true) (hk : k.isFinite = true)
    (h : j.compact = k.compact) : j = k :=
  (compact_writes.delimits hj 0 hk (.nil _) (.nil _) (congrArg (· ++ []) h)).1

theorem indented_inj {j k : Json} (hj : j.isFinite = true) (hk : k.isFinite = true) {level : Nat}
    (h : j.indented level = k.indented level) : j = k :=
  (indented_writes.delimits hj level hk (.nil _) (.nil _) (congrArg (· ++ []) h)).1

end QueryDoc.Json
