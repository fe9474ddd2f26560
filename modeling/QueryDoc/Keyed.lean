/-! Lists of values under keys, in the order in which the keys were first given. -/

namespace QueryDoc.Keyed

/-- Gives a key a value. A key that is there already keeps its place, a new one comes last. -/
def insert (key : String) (value : α) : List (String × α) → List (String × α)
  | [] => [(key, value)]
  | (k, v) :: entries =>
    if k = key then (key, value) :: entries else (k, v) :: insert key value entries

theorem keys_insert (key : String) (value : α) (entries : List (String × α)) :
    (insert key value entries).map Prod.fst =
      if key ∈ entries.map Prod.fst then entries.map Prod.fst
      else entries.map Prod.fst ++ [key] := by
  induction entries with
  | nil => simp [insert]
  | cons entry entries ih =>
    obtain ⟨k, v⟩ := entry
    by_cases h : k = key
    · simp [insert, h]
    · have hk : key ≠ k := Ne.symm h
      by_cases hm : key ∈ entries.map Prod.fst <;> simp_all [insert]

theorem nodup_keys_insert {key : String} {value : α} {entries : List (String × α)}
    (h : (entries.map Prod.fst).Nodup) : ((insert key value entries).map Prod.fst).Nodup := by
  rw [keys_insert]
  split
  · exact h
  · next hnew =>
    refine List.nodup_append.mpr ⟨h, by simp, fun k hk k' hk' => ?_⟩
    rw [List.mem_singleton.mp hk']
    exact fun heq => hnew (heq ▸ hk)

theorem mem_insert_iff {key : String} {value : α} {entries : List (String × α)}
    (h : (entries.map Prod.fst).Nodup) {entry : String × α} :
    entry ∈ insert key value entries ↔ entry = (key, value) ∨ entry.1 ≠ key ∧ entry ∈ entries := by
  induction entries with
  | nil => simp [insert]
  | cons first entries ih =>
    obtain ⟨hnew, hrest⟩ := List.nodup_cons.mp h
    obtain ⟨k, v⟩ := first
    rw [insert]
    split
    · next hk =>
      have hother : entry ∈ entries → entry.1 ≠ key := fun hm hkey =>
        hnew (List.mem_map.mpr ⟨entry, hm, hkey.trans hk.symm⟩)
      grind
    · next hk => grind

theorem lookup_of_mem [BEq κ] [LawfulBEq κ] {entries : List (κ × α)}
    (h : (entries.map Prod.fst).Nodup) {entry : κ × α} (hm : entry ∈ entries) :
    entries.lookup entry.1 = some entry.2 := by
  obtain ⟨before, after, rfl⟩ := List.append_of_mem hm
  refine List.lookup_eq_some_iff.mpr ⟨before, after, rfl, fun other hother => bne_iff_ne.mpr ?_⟩
  rw [List.map_append, List.nodup_append] at h
  exact (h.2.2 _ (List.mem_map_of_mem hother) _ (List.mem_map_of_mem List.mem_cons_self)).symm

end QueryDoc.Keyed
