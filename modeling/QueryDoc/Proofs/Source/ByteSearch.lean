import QueryDoc.Proofs.Source.Position
import QueryDoc.Proofs.Source.Until
import QueryDoc.Text.Utf8

/-! Searching a source for a byte and scanning it character by character lead to the same place. The
search goes through the encoded text and knows nothing of characters; what it finds for an ASCII byte is
where the scan for its character stops. -/

namespace QueryDoc

open Text

/-- The search for a byte is a search through the encoded text. -/
theorem bytesBefore?_eq_findIdx? (byte : UInt8) (cs : List Char) :
    bytesBefore? byte cs = (Utf8.encode cs).findIdx? (· == byte) := by
  induction cs with
  | nil => rfl
  | cons c cs ih =>
    have hencode : Utf8.encode (c :: cs) = String.utf8EncodeChar c ++ Utf8.encode cs := rfl
    rw [bytesBefore?, hencode, List.findIdx?_append, ← ih, String.length_utf8EncodeChar]
    cases (String.utf8EncodeChar c).findIdx? (· == byte) with
    | some i => rfl
    | none => simp [Nat.add_comm]

/-- The longest text without a character that `cs` begins with. -/
structure LongestWithout (d : Char) (cs text : List Char) : Prop where
  begins : text <+: cs
  without : d ∉ text
  longest : ∀ ⦃other⦄, other <+: cs → d ∉ other → other <+: text

theorem longestWithout_takeWhile (d : Char) (cs : List Char) :
    LongestWithout d cs (cs.takeWhile (· != d)) := by
  refine ⟨List.takeWhile_prefix _, fun hmem => ?_, fun other hother hwithout => ?_⟩
  · exact absurd (List.mem_takeWhile_imp hmem) (by simp)
  · obtain ⟨rest, rfl⟩ := hother
    have hall : ∀ c ∈ other, (c != d) = true := by
      intro c hc
      simpa using fun he : c = d => hwithout (he ▸ hc)
    rw [List.takeWhile_append_of_pos hall]
    exact List.prefix_append other _

namespace Scanner

/-- Wherever a scanner has been moved, looking for an ASCII byte finds nothing exactly if its character
does not come any more, and then the scanner stays. Otherwise it gives the longest text without that
character and stands on the character, at the byte that was found, in the same state as after passing
over everything else character by character. -/
theorem until?_agrees_with_skipRun (source : List Char) (file : Option String) (ms : List Move)
    (d : Char) (byte : UInt8) (hd : d.toNat = byte.toNat) (ascii : byte.toNat < 128) :
    let s := (start source file).moves ms
    (s.until? byte = none ↔ d ∉ s.rest) ∧
    (d ∉ s.rest → s.move (.skipUntil byte ascii) = s) ∧
    (d ∈ s.rest → ∃ text t rest n, s.until? byte = some (text, t) ∧
      s.move (.skipUntil byte ascii) = t ∧ t = s.skipRun (· != d) ∧ text = s.run (· != d) ∧
      LongestWithout d s.rest text ∧ t.rest = d :: rest ∧
      (Utf8.encode s.rest).findIdx? (· == byte) = some n ∧
      t.position.offset = s.position.offset + n ∧ (t.spanFrom s.position).slice? source = some text) := by
  intro s
  have hsearch := s.until?_eq hd ascii
  refine ⟨?_, fun hnot => ?_, fun hmem => ?_⟩
  · rw [hsearch]
    split <;> simp_all
  · rw [move, hsearch, if_neg hnot]
  · rw [if_pos hmem] at hsearch
    obtain ⟨rest, hrest⟩ := exists_rest_skipRun hmem
    obtain ⟨passed, hs⟩ : ∃ passed, s.StandsAfter source passed := by
      obtain ⟨passed, hpassed⟩ := (standsAfter_start source file).moves ms
      exact ⟨_, hpassed⟩
    have ht : (s.skipRun (· != d)).StandsAfter source (passed ++ s.run (· != d)) :=
      hs.advanceBy_of_split (s.run_append_rest_skipRun (· != d)).symm
    refine ⟨_, _, rest, byteLength (s.run (· != d)), hsearch, by rw [move, hsearch], rfl, rfl,
      longestWithout_takeWhile d s.rest, hrest, ?_, ?_, hs.slice?_spanFrom ht⟩
    · rw [← bytesBefore?_eq_findIdx?, bytesBefore?_eq hd ascii, if_pos hmem, run]
    · rw [ht.position, hs.position]
      simp [Position.ofPrefix]

theorem until?_agrees_with_skipRun_after_return :
    let s := (start "é\r\n🎉x\"\"".toList).moves [.advance, .advance]
    ∃ t, s.until? 34 = some ("\n🎉x".toList, t) ∧ t = s.skipRun (· != '"') ∧
      t.position = { line := 1, column := 2, column16 := 3, offset := 9 } := by
  obtain ⟨-, -, h⟩ := until?_agrees_with_skipRun "é\r\n🎉x\"\"".toList none [.advance, .advance] '"' 34
    (by decide) (by decide)
  obtain ⟨text, t, rest, n, hsearch, -, ht, htext, -⟩ := h (by decide)
  have hposition : t.position = { line := 1, column := 2, column16 := 3, offset := 9 } := by
    rw [ht]
    decide
  have hrun : text = "\n🎉x".toList := by
    rw [htext]
    decide
  exact ⟨t, hrun ▸ hsearch, ht, hposition⟩

end Scanner

end QueryDoc
