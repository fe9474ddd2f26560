import QueryDoc.Proofs.Source.Until
import QueryDoc.Text.Utf8

/-! What has been encoded is decoded, and nothing else is. The first byte of a character tells its width
and narrows its second byte, and the bytes after it add six bits each. -/

namespace QueryDoc.Text.Utf8

theorem State.step_ascii {byte : Nat} (h : byte < 0x80) (index : Nat) :
    ({ index } : State).step byte = .ok ({ index := index + 1 }, some (Char.ofNat byte)) := by
  simp [step, width?, h]

theorem State.step_lead {byte n : Nat} (h : width? byte = some (n + 2)) (index : Nat) :
    ({ index } : State).step byte =
      .ok ({ index, taken := 1, due := n + 1, range := second byte,
             code := leadBits (n + 2) byte }, none) := by
  simp [step, h]

theorem State.step_inner {s : State} {byte n : Nat} (hdue : s.due = n + 2)
    (hrange : s.range.1 ≤ byte ∧ byte ≤ s.range.2) :
    s.step byte =
      .ok ({ index := s.index, taken := s.taken + 1, due := n + 1,
             code := s.code * 0x40 + byte % 0x40 }, none) := by
  simp [step, hdue, hrange]

theorem State.step_last {s : State} {byte : Nat} (hdue : s.due = 1)
    (hrange : s.range.1 ≤ byte ∧ byte ≤ s.range.2) :
    s.step byte = .ok ({ index := s.index + s.taken + 1 },
      some (Char.ofNat (s.code * 0x40 + byte % 0x40))) := by
  simp [step, hdue, hrange]

theorem toNat_ofNat_of_lt {n : Nat} (h : n < 256) : (UInt8.ofNat n).toNat = n := by
  rw [UInt8.toNat_ofNat']
  exact Nat.mod_eq_of_lt h

theorem decodeFrom_of_step {s t : State} {byte : Nat} (hbyte : byte < 256)
    (h : s.step byte = .ok (t, none)) (bytes : List UInt8) :
    decodeFrom s (UInt8.ofNat byte :: bytes) = decodeFrom t bytes := by
  rw [decodeFrom, toNat_ofNat_of_lt hbyte, h]

theorem decodeFrom_of_step_some {s t : State} {byte : Nat} {c : Char} (hbyte : byte < 256)
    (h : s.step byte = .ok (t, some c)) (bytes : List UInt8) :
    decodeFrom s (UInt8.ofNat byte :: bytes) = (decodeFrom t bytes).map (c :: ·) := by
  rw [decodeFrom, toNat_ofNat_of_lt hbyte, h]

theorem second_le (first byte : Nat) (hlow : 0x80 ≤ byte) (hhigh : byte ≤ 0xBF)
    (hE0 : first = 0xE0 → 0xA0 ≤ byte) (hED : first = 0xED → byte ≤ 0x9F)
    (hF0 : first = 0xF0 → 0x90 ≤ byte) (hF4 : first = 0xF4 → byte ≤ 0x8F) :
    (second first).1 ≤ byte ∧ byte ≤ (second first).2 := by
  unfold second
  split
  · next h => exact ⟨hE0 h, hhigh⟩
  split
  · next h => exact ⟨hlow, hED h⟩
  split
  · next h => exact ⟨hF0 h, hhigh⟩
  split
  · next h => exact ⟨hlow, hF4 h⟩
  · exact ⟨hlow, hhigh⟩

section Widths

variable {first snd third last : Nat} (index : Nat) (bytes : List UInt8)

theorem decodeFrom_pair (hfirst : 0xC2 ≤ first ∧ first ≤ 0xDF) (hlast : 0x80 ≤ last ∧ last ≤ 0xBF) :
    decodeFrom { index } (.ofNat first :: .ofNat last :: bytes) =
      (decodeFrom { index := index + 1 + 1 } bytes).map
        (Char.ofNat (first % 0x20 * 64 + last % 64) :: ·) := by
  have hwidth : width? first = some 2 := by
    rw [width?, if_neg (by omega), if_pos hfirst]
  have hsecond := second_le first last hlast.1 hlast.2 (by omega) (by omega) (by omega) (by omega)
  rw [decodeFrom_of_step (by omega) (State.step_lead hwidth index),
    decodeFrom_of_step_some (by omega) (State.step_last rfl hsecond)]
  rfl

theorem decodeFrom_triple (hfirst : 0xE0 ≤ first ∧ first ≤ 0xEF) (hsnd : 0x80 ≤ snd ∧ snd ≤ 0xBF)
    (hE0 : first = 0xE0 → 0xA0 ≤ snd) (hED : first = 0xED → snd ≤ 0x9F)
    (hlast : 0x80 ≤ last ∧ last ≤ 0xBF) :
    decodeFrom { index } (.ofNat first :: .ofNat snd :: .ofNat last :: bytes) =
      (decodeFrom { index := index + 2 + 1 } bytes).map
        (Char.ofNat ((first % 0x10 * 64 + snd % 64) * 64 + last % 64) :: ·) := by
  have hwidth : width? first = some 3 := by
    rw [width?, if_neg (by omega), if_neg (by omega), if_pos hfirst]
  have hsecond := second_le first snd hsnd.1 hsnd.2 hE0 hED (by omega) (by omega)
  rw [decodeFrom_of_step (by omega) (State.step_lead hwidth index),
    decodeFrom_of_step (by omega) (State.step_inner rfl hsecond),
    decodeFrom_of_step_some (by omega) (State.step_last rfl hlast)]
  rfl

theorem decodeFrom_quadruple (hfirst : 0xF0 ≤ first ∧ first ≤ 0xF4)
    (hsnd : 0x80 ≤ snd ∧ snd ≤ 0xBF) (hF0 : first = 0xF0 → 0x90 ≤ snd)
    (hF4 : first = 0xF4 → snd ≤ 0x8F) (hthird : 0x80 ≤ third ∧ third ≤ 0xBF)
    (hlast : 0x80 ≤ last ∧ last ≤ 0xBF) :
    decodeFrom { index } (.ofNat first :: .ofNat snd :: .ofNat third :: .ofNat last :: bytes) =
      (decodeFrom { index := index + 3 + 1 } bytes).map
        (Char.ofNat (((first % 0x08 * 64 + snd % 64) * 64 + third % 64) * 64 + last % 64) :: ·) := by
  have hwidth : width? first = some 4 := by
    rw [width?, if_neg (by omega), if_neg (by omega), if_neg (by omega), if_pos hfirst]
  have hsecond := second_le first snd hsnd.1 hsnd.2 (by omega) (by omega) hF0 hF4
  rw [decodeFrom_of_step (by omega) (State.step_lead hwidth index),
    decodeFrom_of_step (by omega) (State.step_inner rfl hsecond),
    decodeFrom_of_step (by omega) (State.step_inner rfl hthird),
    decodeFrom_of_step_some (by omega) (State.step_last rfl hlast)]
  rfl

variable {n : Nat}

theorem decodeFrom_one (h : n ≤ 0x7F) :
    decodeFrom { index } (.ofNat n :: bytes) =
      (decodeFrom { index := index + 1 } bytes).map (Char.ofNat n :: ·) :=
  decodeFrom_of_step_some (by omega) (State.step_ascii (by omega) index) bytes

/-- The bytes after the first one hold six bits each. -/
theorem trailing_range (n : Nat) : 0x80 ≤ n % 64 + 128 ∧ n % 64 + 128 ≤ 0xBF := by
  omega

theorem trailing_bits (n : Nat) : (n % 64 + 128) % 64 = n % 64 := by
  omega

theorem decodeFrom_two (hlow : 0x7F < n) (hhigh : n ≤ 0x7FF) :
    decodeFrom { index } (.ofNat (n / 64 % 32 + 192) :: .ofNat (n % 64 + 128) :: bytes) =
      (decodeFrom { index := index + 1 + 1 } bytes).map (Char.ofNat n :: ·) := by
  have hlead : (n / 64 % 32 + 192) % 0x20 = n / 64 := by omega
  rw [decodeFrom_pair index bytes (by omega) (trailing_range n), hlead, trailing_bits,
    Nat.div_add_mod']

theorem decodeFrom_three (hlow : 0x7FF < n) (hhigh : n ≤ 0xFFFF)
    (hvalid : n < 0xD800 ∨ 0xDFFF < n) :
    decodeFrom { index } (.ofNat (n / 4096 % 16 + 224) :: .ofNat (n / 64 % 64 + 128) ::
      .ofNat (n % 64 + 128) :: bytes) =
      (decodeFrom { index := index + 2 + 1 } bytes).map (Char.ofNat n :: ·) := by
  have hlead : (n / 4096 % 16 + 224) % 0x10 = n / 64 / 64 := by omega
  rw [decodeFrom_triple index bytes (by omega) (trailing_range (n / 64)) (by omega) (by omega)
    (trailing_range n), hlead, trailing_bits, trailing_bits, Nat.div_add_mod', Nat.div_add_mod']

theorem decodeFrom_four (hlow : 0xFFFF < n) (hhigh : n < 0x110000) :
    decodeFrom { index } (.ofNat (n / 262144 % 8 + 240) :: .ofNat (n / 4096 % 64 + 128) ::
      .ofNat (n / 64 % 64 + 128) :: .ofNat (n % 64 + 128) :: bytes) =
      (decodeFrom { index := index + 3 + 1 } bytes).map (Char.ofNat n :: ·) := by
  have hlead : (n / 262144 % 8 + 240) % 0x08 = n / 4096 / 64 := by omega
  have hsnd : n / 4096 = n / 64 / 64 := (Nat.div_div_eq_div_mul n 64 64).symm
  rw [decodeFrom_quadruple index bytes (by omega) (trailing_range (n / 4096)) (by omega) (by omega)
    (trailing_range (n / 64)) (trailing_range n), hlead, trailing_bits, trailing_bits,
    trailing_bits, Nat.div_add_mod', hsnd, Nat.div_add_mod', Nat.div_add_mod']

end Widths

theorem decodeFrom_utf8EncodeChar (c : Char) (index : Nat) (bytes : List UInt8) :
    ∃ next : Nat, decodeFrom { index } (String.utf8EncodeChar c ++ bytes) =
      (decodeFrom { index := next } bytes).map (c :: ·) := by
  have hvalid : c.toNat < 0xD800 ∨ 0xDFFF < c.toNat ∧ c.toNat < 0x110000 := c.valid
  have hval : c.val.toNat = c.toNat := rfl
  have hofNat := Char.ofNat_toNat c
  unfold String.utf8EncodeChar
  rw [hval]
  by_cases h₁ : c.toNat ≤ 0x7F
  · have hh := decodeFrom_one index bytes h₁
    rw [hofNat] at hh
    exact ⟨_, by rwa [if_pos h₁]⟩
  by_cases h₂ : c.toNat ≤ 0x7FF
  · have hh := decodeFrom_two index bytes (by omega) h₂
    rw [hofNat] at hh
    exact ⟨_, by rwa [if_neg h₁, if_pos h₂]⟩
  by_cases h₃ : c.toNat ≤ 0xFFFF
  · have hh := decodeFrom_three index bytes (by omega) h₃ (by omega)
    rw [hofNat] at hh
    exact ⟨_, by rwa [if_neg h₁, if_neg h₂, if_pos h₃]⟩
  · have hh := decodeFrom_four (n := c.toNat) index bytes (by omega) (by omega)
    rw [hofNat] at hh
    exact ⟨_, by rwa [if_neg h₁, if_neg h₂, if_neg h₃]⟩

theorem decodeFrom_encode (text : List Char) (index : Nat) :
    decodeFrom { index } (encode text) = .ok text := by
  induction text generalizing index with
  | nil => rfl
  | cons c text ih =>
    obtain ⟨next, hnext⟩ := decodeFrom_utf8EncodeChar c index (encode text)
    rw [encode, List.flatMap_cons, ← encode, hnext, ih]
    rfl

theorem decode_encode (text : List Char) : decode (encode text) = .ok text :=
  decodeFrom_encode text 0

theorem exists_of_map_ok {decoded : Except Fault (List Char)} {c : Char} {text : List Char}
    (h : decoded.map (c :: ·) = .ok text) : ∃ more, text = c :: more ∧ decoded = .ok more := by
  cases decoded with
  | error e => cases h
  | ok more => exact ⟨more, (Except.ok.inj h).symm, rfl⟩

section Inversion

variable {bytes : List UInt8} {text : List Char} {index taken code n : Nat} {range : Nat × Nat}

theorem exists_inner (h : decodeFrom { index, taken, due := n + 2, range, code } bytes = .ok text) :
    ∃ (byte : UInt8) (rest : List UInt8), bytes = byte :: rest ∧
      (range.1 ≤ byte.toNat ∧ byte.toNat ≤ range.2) ∧
      decodeFrom { index, taken := taken + 1, due := n + 1,
                   code := code * 0x40 + byte.toNat % 0x40 } rest = .ok text := by
  cases bytes with
  | nil => cases h
  | cons byte rest =>
    by_cases hrange : range.1 ≤ byte.toNat ∧ byte.toNat ≤ range.2
    · rw [decodeFrom, State.step_inner rfl hrange] at h
      exact ⟨byte, rest, rfl, hrange, h⟩
    · rw [decodeFrom, State.step, if_neg (Nat.succ_ne_zero _), if_neg hrange] at h
      cases h

theorem exists_last (h : decodeFrom { index, taken, due := 1, range, code } bytes = .ok text) :
    ∃ (byte : UInt8) (rest : List UInt8) (more : List Char), bytes = byte :: rest ∧
      (range.1 ≤ byte.toNat ∧ byte.toNat ≤ range.2) ∧
      text = Char.ofNat (code * 0x40 + byte.toNat % 0x40) :: more ∧
      decodeFrom { index := index + taken + 1 } rest = .ok more := by
  cases bytes with
  | nil => cases h
  | cons byte rest =>
    by_cases hrange : range.1 ≤ byte.toNat ∧ byte.toNat ≤ range.2
    · rw [decodeFrom, State.step_last rfl hrange] at h
      obtain ⟨more, rfl, hmore⟩ := exists_of_map_ok h
      exact ⟨byte, rest, more, rfl, hrange, rfl, hmore⟩
    · rw [decodeFrom, State.step, if_neg Nat.one_ne_zero, if_neg hrange] at h
      cases h

theorem exists_first (h : decodeFrom { index } bytes = .ok text) (hne : bytes ≠ []) :
    ∃ (byte : UInt8) (rest : List UInt8), bytes = byte :: rest ∧
      ((byte.toNat < 0x80 ∧ ∃ more, text = Char.ofNat byte.toNat :: more ∧
        decodeFrom { index := index + 1 } rest = .ok more) ∨
      ∃ n, width? byte.toNat = some (n + 2) ∧
        decodeFrom { index, taken := 1, due := n + 1, range := second byte.toNat,
                     code := leadBits (n + 2) byte.toNat } rest = .ok text) := by
  obtain ⟨byte, rest, rfl⟩ := List.exists_cons_of_ne_nil hne
  refine ⟨byte, rest, rfl, ?_⟩
  by_cases hascii : byte.toNat < 0x80
  · rw [decodeFrom, State.step_ascii hascii] at h
    exact .inl ⟨hascii, exists_of_map_ok h⟩
  cases hwidth : width? byte.toNat with
  | none => simp [decodeFrom, State.step, hwidth] at h
  | some width =>
    obtain ⟨n, rfl⟩ : ∃ n, width = n + 2 := by
      refine ⟨width - 2, ?_⟩
      rw [width?, if_neg hascii] at hwidth
      grind
    rw [decodeFrom, State.step_lead hwidth] at h
    exact .inr ⟨n, rfl, h⟩

/-- The bounds that the first byte sets for the second one. -/
theorem of_second {first byte : Nat} (h : (second first).1 ≤ byte ∧ byte ≤ (second first).2) :
    0x80 ≤ byte ∧ byte ≤ 0xBF ∧ (first = 0xE0 → 0xA0 ≤ byte) ∧ (first = 0xED → byte ≤ 0x9F) ∧
      (first = 0xF0 → 0x90 ≤ byte) ∧ (first = 0xF4 → byte ≤ 0x8F) := by
  unfold second at h
  grind

end Inversion

theorem toNat_val_ofNat {n : Nat} (h : n.isValidChar) :
    (Char.ofNat n).val.toNat = n := by
  rw [Char.ofNat, dif_pos h]
  rfl

theorem ofNat_eq_of_toNat (byte : UInt8) {n : Nat} (h : n = byte.toNat) : UInt8.ofNat n = byte := by
  rw [h, UInt8.ofNat_toNat]

section Chars

variable {first snd third last : UInt8}

theorem utf8EncodeChar_pair (hfirst : 0xC2 ≤ first.toNat ∧ first.toNat ≤ 0xDF)
    (hlast : 0x80 ≤ last.toNat ∧ last.toNat ≤ 0xBF) :
    String.utf8EncodeChar (Char.ofNat (first.toNat % 0x20 * 0x40 + last.toNat % 0x40)) =
      [first, last] := by
  rw [String.utf8EncodeChar, toNat_val_ofNat (.inl (by omega))]
  rw [if_neg (by omega), if_pos (by omega), ofNat_eq_of_toNat first (by omega),
    ofNat_eq_of_toNat last (by omega)]

theorem utf8EncodeChar_triple (hfirst : 0xE0 ≤ first.toNat ∧ first.toNat ≤ 0xEF)
    (hsnd : 0x80 ≤ snd.toNat ∧ snd.toNat ≤ 0xBF) (hE0 : first.toNat = 0xE0 → 0xA0 ≤ snd.toNat)
    (hED : first.toNat = 0xED → snd.toNat ≤ 0x9F) (hlast : 0x80 ≤ last.toNat ∧ last.toNat ≤ 0xBF) :
    String.utf8EncodeChar (Char.ofNat
      ((first.toNat % 0x10 * 0x40 + snd.toNat % 0x40) * 0x40 + last.toNat % 0x40)) =
      [first, snd, last] := by
  rw [String.utf8EncodeChar, toNat_val_ofNat (by rw [Nat.isValidChar]; omega)]
  rw [if_neg (by omega), if_neg (by omega), if_pos (by omega), ofNat_eq_of_toNat first (by omega),
    ofNat_eq_of_toNat snd (by omega), ofNat_eq_of_toNat last (by omega)]

theorem utf8EncodeChar_quadruple (hfirst : 0xF0 ≤ first.toNat ∧ first.toNat ≤ 0xF4)
    (hsnd : 0x80 ≤ snd.toNat ∧ snd.toNat ≤ 0xBF) (hF0 : first.toNat = 0xF0 → 0x90 ≤ snd.toNat)
    (hF4 : first.toNat = 0xF4 → snd.toNat ≤ 0x8F)
    (hthird : 0x80 ≤ third.toNat ∧ third.toNat ≤ 0xBF) (hlast : 0x80 ≤ last.toNat ∧ last.toNat ≤ 0xBF) :
    String.utf8EncodeChar (Char.ofNat (((first.toNat % 0x08 * 0x40 + snd.toNat % 0x40) * 0x40 +
      third.toNat % 0x40) * 0x40 + last.toNat % 0x40)) = [first, snd, third, last] := by
  rw [String.utf8EncodeChar, toNat_val_ofNat (by rw [Nat.isValidChar]; omega)]
  rw [if_neg (by omega), if_neg (by omega), if_neg (by omega), ofNat_eq_of_toNat first (by omega),
    ofNat_eq_of_toNat snd (by omega), ofNat_eq_of_toNat third (by omega),
    ofNat_eq_of_toNat last (by omega)]

end Chars

theorem width?_eq_some {first width : Nat} (h : width? first = some width) :
    (width = 1 ∧ first < 0x80) ∨ (width = 2 ∧ 0xC2 ≤ first ∧ first ≤ 0xDF) ∨
      (width = 3 ∧ 0xE0 ≤ first ∧ first ≤ 0xEF) ∨ (width = 4 ∧ 0xF0 ≤ first ∧ first ≤ 0xF4) := by
  unfold width? at h
  grind

/-- Bytes that can be decoded start with the encoding of the first character. -/
theorem exists_char {bytes : List UInt8} {text : List Char} {index : Nat}
    (h : decodeFrom { index } bytes = .ok text) (hne : bytes ≠ []) :
    ∃ (c : Char) (rest : List UInt8) (more : List Char) (next : Nat),
      bytes = String.utf8EncodeChar c ++ rest ∧ text = c :: more ∧
        decodeFrom { index := next } rest = .ok more := by
  obtain ⟨first, rest, rfl, ⟨hascii, more, rfl, hmore⟩ | ⟨n, hwidth, h⟩⟩ := exists_first h hne
  · have hchar : String.utf8EncodeChar (Char.ofNat first.toNat) = [first] := by
      rw [String.utf8EncodeChar, toNat_val_ofNat (.inl (by omega)), if_pos (by omega),
        UInt8.ofNat_toNat]
    exact ⟨_, rest, more, _, by rw [hchar]; rfl, rfl, hmore⟩
  obtain ⟨hn, -⟩ | ⟨hn, hfirst⟩ | ⟨hn, hfirst⟩ | ⟨hn, hfirst⟩ := width?_eq_some hwidth
  · omega
  · obtain rfl : n = 0 := by omega
    obtain ⟨last, rest, more, rfl, hlast, rfl, hmore⟩ := exists_last h
    obtain ⟨hlow, hhigh, -⟩ := of_second hlast
    have hchar := utf8EncodeChar_pair hfirst ⟨hlow, hhigh⟩
    exact ⟨_, rest, more, _, (congrArg (· ++ rest) hchar).symm, rfl, hmore⟩
  · obtain rfl : n = 1 := by omega
    obtain ⟨snd, rest, rfl, hsnd, h⟩ := exists_inner h
    obtain ⟨last, rest, more, rfl, hlast, rfl, hmore⟩ := exists_last h
    obtain ⟨hlow, hhigh, hE0, hED, -⟩ := of_second hsnd
    have hchar := utf8EncodeChar_triple hfirst ⟨hlow, hhigh⟩ hE0 hED hlast
    exact ⟨_, rest, more, _, (congrArg (· ++ rest) hchar).symm, rfl, hmore⟩
  · obtain rfl : n = 2 := by omega
    obtain ⟨snd, rest, rfl, hsnd, h⟩ := exists_inner h
    obtain ⟨third, rest, rfl, hthird, h⟩ := exists_inner h
    obtain ⟨last, rest, more, rfl, hlast, rfl, hmore⟩ := exists_last h
    obtain ⟨hlow, hhigh, -, -, hF0, hF4⟩ := of_second hsnd
    have hchar := utf8EncodeChar_quadruple hfirst ⟨hlow, hhigh⟩ hF0 hF4 hthird hlast
    exact ⟨_, rest, more, _, (congrArg (· ++ rest) hchar).symm, rfl, hmore⟩

theorem eq_encode_of_decodeFrom {bytes : List UInt8} {text : List Char} {index : Nat}
    (h : decodeFrom { index } bytes = .ok text) : bytes = encode text := by
  induction text generalizing bytes index with
  | nil =>
    cases bytes with
    | nil => rfl
    | cons byte rest =>
      obtain ⟨c, rest, more, next, -, htext, -⟩ := exists_char h (List.cons_ne_nil byte rest)
      cases htext
  | cons c text ih =>
    have hne : bytes ≠ [] := by
      rintro rfl
      cases h
    obtain ⟨d, rest, more, next, rfl, htext, hmore⟩ := exists_char h hne
    obtain ⟨rfl, rfl⟩ := List.cons.inj htext
    rw [encode, List.flatMap_cons, ih hmore]
    rfl

/-- Bytes are decoded if they are the encoding of a text, and to that text. -/
theorem decode_eq_ok_iff {bytes : List UInt8} {text : List Char} :
    decode bytes = .ok text ↔ bytes = encode text := by
  refine ⟨eq_encode_of_decodeFrom, ?_⟩
  rintro rfl
  exact decode_encode text

/-- Nothing is due exactly where a character has been completed. -/
theorem State.due_eq_zero_iff_of_step {s t : State} {byte : Nat} {c : Option Char}
    (h : s.step byte = .ok (t, c)) : t.due = 0 ↔ c.isSome = true := by
  unfold step at h
  split at h
  · split at h
    · cases h
    · cases h
      exact ⟨fun _ => rfl, fun _ => rfl⟩
    · next width hne hwidth =>
      cases h
      have hwide : 2 ≤ width := by
        have hcases := width?_eq_some hwidth
        have hone : width ≠ 1 := hne
        omega
      simp
      omega
  · split at h
    · split at h
      · cases h
        exact ⟨fun _ => rfl, fun _ => rfl⟩
      · cases h
        simp
        omega
    · cases h

theorem piecesFrom_of_decodeFrom {s : State} {held bytes : List UInt8} {text : List Char}
    (hheld : s.due = 0 → held = []) (h : decodeFrom s bytes = .ok text) :
    piecesFrom s held bytes = text.map .ok := by
  induction bytes generalizing s held text with
  | nil =>
    rw [decodeFrom] at h
    split at h
    · next hdue =>
      cases h
      rw [hheld hdue]
      rfl
    · cases h
  | cons byte bytes ih =>
    rw [decodeFrom] at h
    rw [piecesFrom]
    rcases hstep : s.step byte.toNat with fault | ⟨t, _ | c⟩
    · rw [hstep] at h
      cases h
    · rw [hstep] at h
      have hdue := State.due_eq_zero_iff_of_step hstep
      exact ih (fun hzero => by simp [hzero] at hdue) h
    · rw [hstep] at h
      obtain ⟨more, rfl, hmore⟩ := exists_of_map_ok h
      exact congrArg (.ok c :: ·) (ih (fun _ => rfl) hmore)

/-- Text is displayed as it is. -/
theorem lossy_encode (text : List Char) : lossy (encode text) = text := by
  rw [lossy, pieces, piecesFrom_of_decodeFrom (fun _ => rfl) (decode_encode text), List.map_map]
  exact List.map_id text

end QueryDoc.Text.Utf8
