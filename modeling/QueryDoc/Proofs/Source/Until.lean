import Mathlib.Data.List.TakeWhile
import QueryDoc.Source.Scanner

/-! Looking for an ASCII character byte by byte. In UTF-8 its byte occurs nowhere but as its own
encoding, so the search finds exactly the next occurrence of the character. -/

namespace QueryDoc

theorem le_toNat_of_mem_utf8EncodeChar {c : Char} (hc : 127 < c.toNat) {byte : UInt8}
    (h : byte ∈ String.utf8EncodeChar c) : 128 ≤ byte.toNat := by
  have hval : c.val.toNat = c.toNat := rfl
  unfold String.utf8EncodeChar at h
  rw [hval, if_neg (by omega)] at h
  split at h
  · simp only [List.mem_cons, List.not_mem_nil, or_false] at h
    rcases h with rfl | rfl <;> rw [UInt8.toNat_ofNat'] <;> omega
  · split at h
    · simp only [List.mem_cons, List.not_mem_nil, or_false] at h
      rcases h with rfl | rfl | rfl <;> rw [UInt8.toNat_ofNat'] <;> omega
    · simp only [List.mem_cons, List.not_mem_nil, or_false] at h
      rcases h with rfl | rfl | rfl | rfl <;> rw [UInt8.toNat_ofNat'] <;> omega

theorem findIdx?_utf8EncodeChar {byte : UInt8} (hbyte : byte.toNat < 128) (c : Char) :
    (String.utf8EncodeChar c).findIdx? (· == byte) =
      if c.toNat = byte.toNat then some 0 else none := by
  by_cases hc : 127 < c.toNat
  · rw [if_neg (by omega), List.findIdx?_eq_none_iff]
    intro b hb
    have hle := le_toNat_of_mem_utf8EncodeChar hc hb
    have hne : b ≠ byte := by
      rintro rfl
      omega
    simp [hne]
  · have hval : c.val.toNat = c.toNat := rfl
    have hencode : String.utf8EncodeChar c = [UInt8.ofNat c.toNat] := by
      unfold String.utf8EncodeChar
      rw [hval, if_pos (by omega)]
    have hiff : UInt8.ofNat c.toNat = byte ↔ c.toNat = byte.toNat := by
      rw [← UInt8.toNat_inj, UInt8.toNat_ofNat']
      omega
    simp [hencode, List.findIdx?_cons, hiff]

theorem bytesBefore?_eq {d : Char} {byte : UInt8} (hd : d.toNat = byte.toNat)
    (hbyte : byte.toNat < 128) (cs : List Char) :
    bytesBefore? byte cs =
      if d ∈ cs then some (byteLength (cs.takeWhile (· != d))) else none := by
  induction cs with
  | nil => rfl
  | cons c cs ih =>
    rw [bytesBefore?, findIdx?_utf8EncodeChar hbyte, ← hd]
    by_cases h : c = d
    · simp [h, byteLength]
    · have hh : c.toNat ≠ d.toNat := fun he => h (Char.toNat_inj.mp he)
      by_cases hm : d ∈ cs <;> simp [hh, h, ih, hm, Ne.symm h, byteLength]

theorem charsCovering_byteLength (cs ds : List Char) :
    charsCovering (byteLength cs) (cs ++ ds) = cs.length := by
  induction cs with
  | nil => cases ds <;> rfl
  | cons c cs ih =>
    obtain ⟨n, hn, _, hsub⟩ := byteLength_cons_eq_succ c cs
    simp only [List.cons_append, hn, charsCovering, hsub, ih, List.length_cons]

namespace Scanner

/-- The scan for a character that comes stops on it. -/
theorem exists_rest_skipRun {s : Scanner} {d : Char} (h : d ∈ s.rest) :
    ∃ rest, (s.skipRun (· != d)).rest = d :: rest := by
  rw [rest_skipRun]
  cases hd : s.rest.dropWhile (· != d) with
  | nil => exact absurd (List.dropWhile_eq_nil_iff.mp hd d h) (by simp)
  | cons c rest =>
    have hc := List.head?_dropWhile_not (· != d) s.rest
    rw [hd] at hc
    exact ⟨rest, by simpa using hc⟩

theorem until?_eq (s : Scanner) {d : Char} {byte : UInt8} (hd : d.toNat = byte.toNat)
    (hbyte : byte.toNat < 128) :
    s.until? byte =
      if d ∈ s.rest then some (s.run (· != d), s.skipRun (· != d)) else none := by
  have hcover : charsCovering (byteLength (s.run (· != d))) s.rest = (s.run (· != d)).length := by
    have h := charsCovering_byteLength (s.run (· != d)) (s.skipRun (· != d)).rest
    rwa [run_append_rest_skipRun] at h
  have htake : s.rest.take (s.run (· != d)).length = s.run (· != d) :=
    (List.prefix_iff_eq_take.mp (List.takeWhile_prefix _)).symm
  rw [until?, bytesBefore?_eq hd hbyte]
  split
  · change some (s.rest.take (charsCovering (byteLength (s.run (· != d))) s.rest), _) = _
    rw [hcover, htake, skipRun]
    exact congrArg (fun n => some (s.run (· != d), s.advanceBy n)) hcover
  · rfl

end Scanner

end QueryDoc
