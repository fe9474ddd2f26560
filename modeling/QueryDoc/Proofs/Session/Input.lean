import Mathlib.Data.List.Basic
import QueryDoc.Proofs.Text.Lines
import QueryDoc.Proofs.Text.Utf8
import QueryDoc.Session

/-! The input of a session is cut into lines before it is decoded. The bytes of the line break stand for
no other character, so the lines of a text come out as they are. -/

namespace QueryDoc.Session

open Text Text.Utf8

theorem chunks_append_newline {front : List UInt8} (h : 10 ∉ front) (bytes : List UInt8) :
    chunks (front ++ 10 :: bytes) = (front ++ [10]) :: chunks bytes := by
  induction front with
  | nil => rfl
  | cons byte front ih =>
    simp only [List.mem_cons, not_or] at h
    rw [List.cons_append, chunks, if_neg (Ne.symm h.1), ih h.2]
    rfl

theorem chunks_of_not_mem {bytes : List UInt8} (h : 10 ∉ bytes) (hne : bytes ≠ []) :
    chunks bytes = [bytes] := by
  induction bytes with
  | nil => exact absurd rfl hne
  | cons byte bytes ih =>
    simp only [List.mem_cons, not_or] at h
    rw [chunks, if_neg (Ne.symm h.1)]
    by_cases hbytes : bytes = []
    · rw [hbytes]
      rfl
    · rw [ih h.2 hbytes]

theorem encode_append (front back : List Char) :
    encode (front ++ back) = encode front ++ encode back :=
  List.flatMap_append

theorem encode_cons_ne_nil (c : Char) (cs : List Char) : encode (c :: cs) ≠ [] := by
  have hpos := c.utf8Size_pos
  rw [← String.length_utf8EncodeChar, List.length_pos_iff] at hpos
  exact List.append_ne_nil_of_left_ne_nil hpos _

/-- The byte of an ASCII character stands in the encoding of no other one. -/
theorem toNat_eq_of_mem_utf8EncodeChar {c : Char} {byte : UInt8} (hbyte : byte.toNat < 128)
    (h : byte ∈ String.utf8EncodeChar c) : c.toNat = byte.toNat := by
  by_cases hc : c.toNat = byte.toNat
  · exact hc
  · have hfind := findIdx?_utf8EncodeChar hbyte c
    rw [if_neg hc, List.findIdx?_eq_none_iff] at hfind
    exact absurd (hfind byte h) (by simp)

theorem mem_of_mem_encode {d : Char} {byte : UInt8} (hd : d.toNat = byte.toNat)
    (hbyte : byte.toNat < 128) {text : List Char} (h : byte ∈ encode text) : d ∈ text := by
  obtain ⟨c, hc, hmem⟩ := List.mem_flatMap.mp h
  have hh := toNat_eq_of_mem_utf8EncodeChar hbyte hmem
  obtain rfl : c = d := Char.toNat_inj.mp (hh.trans hd.symm)
  exact hc

theorem getLast?_of_getLast?_encode {d : Char} {byte : UInt8} (hd : d.toNat = byte.toNat)
    (hbyte : byte.toNat < 128) {text : List Char} (h : (encode text).getLast? = some byte) :
    text.getLast? = some d := by
  rcases text.eq_nil_or_concat' with rfl | ⟨front, c, rfl⟩
  · cases h
  · have hmem : byte ∈ encode [c] := by
      rw [encode_append, List.getLast?_append_of_ne_nil _ (encode_cons_ne_nil c [])] at h
      exact List.mem_of_getLast? h
    have hc := mem_of_mem_encode hd hbyte hmem
    rw [List.getLast?_concat, List.mem_singleton.mp hc]

theorem dropLineBreak_newline {bytes : List UInt8} (h : bytes.getLast? ≠ some 13) :
    dropLineBreak (bytes ++ [10]) = bytes := by
  rcases bytes.eq_nil_or_concat' with rfl | ⟨front, byte, rfl⟩
  · rfl
  · rw [List.getLast?_concat] at h
    have hreverse : (front ++ [byte] ++ [10]).reverse = 10 :: byte :: front.reverse := by simp
    rw [dropLineBreak, hreverse]
    split
    · next heq =>
      simp only [List.cons.injEq] at heq
      exact absurd (congrArg some heq.2.1) h
    · next heq =>
      rw [← (List.cons.inj heq).2, List.reverse_cons, List.reverse_reverse]
    · next hother => exact absurd rfl (hother _)

theorem dropLineBreak_return_newline (bytes : List UInt8) :
    dropLineBreak (bytes ++ [13, 10]) = bytes := by
  simp [dropLineBreak]

theorem dropLineBreak_of_getLast? {bytes : List UInt8} (h : bytes.getLast? ≠ some 10) :
    dropLineBreak bytes = bytes := by
  have hhead : ∀ rest, bytes.reverse ≠ 10 :: rest := by
    intro rest hrest
    rw [← List.head?_reverse, hrest] at h
    exact h rfl
  rw [dropLineBreak]
  split
  · next heq => exact absurd heq (hhead _)
  · next heq => exact absurd heq (hhead _)
  · rfl

variable {line : List Char}

theorem not_mem_encode (h : '\n' ∉ line) : 10 ∉ encode line := fun hmem =>
  h (mem_of_mem_encode (by decide) (by decide) hmem)

theorem decodeLine_newline (h : '\n' ∉ line) :
    decodeLine (encode line ++ [10]) = .ok (dropReturn line) := by
  by_cases hreturn : line.getLast? = some '\r'
  · obtain ⟨front, rfl⟩ := List.getLast?_eq_some_iff.mp hreturn
    have hbytes : encode (front ++ ['\r']) ++ [10] = encode front ++ [13, 10] := by
      rw [encode_append, List.append_assoc]
      rfl
    rw [decodeLine, hbytes, dropLineBreak_return_newline, decode_encode, dropReturn_append_return]
  · have hlast : (encode line).getLast? ≠ some 13 := fun hh =>
      hreturn (getLast?_of_getLast?_encode (by decide) (by decide) hh)
    rw [decodeLine, dropLineBreak_newline hlast, decode_encode, dropReturn_eq_self hreturn]

theorem decodeLine_encode (h : '\n' ∉ line) : decodeLine (encode line) = .ok line := by
  have hlast : (encode line).getLast? ≠ some 10 := fun hh =>
    not_mem_encode h (List.mem_of_getLast? hh)
  rw [decodeLine, dropLineBreak_of_getLast? hlast, decode_encode]

/-- The lines of an encoded text are those of the text. -/
theorem inputLines_encode (text : List Char) :
    inputLines (encode text) = (lines text).map .ok := by
  induction hn : text.length using Nat.strongRecOn generalizing text with
  | ind n ih =>
    by_cases hmem : '\n' ∈ text
    · obtain ⟨line, rest, rfl, hline⟩ := List.eq_append_cons_of_mem hmem
      have hbytes : encode (line ++ '\n' :: rest) = encode line ++ 10 :: encode rest :=
        encode_append line _
      have hlength : rest.length < n := by
        rw [← hn, List.length_append, List.length_cons]
        omega
      have hrest := ih _ hlength rest rfl
      rw [inputLines] at hrest
      rw [inputLines, hbytes, chunks_append_newline (not_mem_encode hline), List.map_cons,
        decodeLine_newline hline, hrest, lines_append_newline hline, List.map_cons]
    · cases text with
      | nil => rfl
      | cons c cs =>
        rw [inputLines, chunks_of_not_mem (not_mem_encode hmem) (encode_cons_ne_nil c cs),
          lines_of_not_mem hmem (List.cons_ne_nil _ _), List.map_singleton,
          decodeLine_encode hmem, List.map_singleton]

end QueryDoc.Session
