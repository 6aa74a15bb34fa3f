import Kleene.Text.Encoding
import Mathlib.Data.List.Basic
import Mathlib.Tactic.SplitIfs

/-!
# Bytes that are text

`Text.Spells front code` says that bytes are one character of UTF-8 by the table that the strict
reader follows. It is how `String.utf8EncodeChar` writes the character with this code, so the reader
finds at the front of some bytes exactly what is written there.

The main statement is `decodeUtf8_eq_ok_iff`: bytes are read as text exactly if they are the
characters of the text in UTF-8, one after the other.
-/

set_option autoImplicit false

namespace Kleene.Text

/-! ## One character -/

/-- The bytes that continue a character are those between two limits. -/
theorem isContinuation_iff {byte : UInt8} :
    isContinuation byte = true ↔ 0x80 ≤ byte.toNat ∧ byte.toNat ≤ 0xbf := by
  simp [isContinuation, UInt8.le_iff_toNat_le]

/-- A continuation byte adds its six bits to a code. -/
theorem extend_eq {code bits : Nat} {byte : UInt8} (h : byte.toNat = bits + 128) :
    extend code byte = code * 64 + bits := by
  show code * 0x40 + (byte.toNat - 0x80) = _
  rw [h, Nat.add_sub_cancel]

/-- The second byte of a character continues it, and is limited after four of the first bytes. -/
theorem utf8Second_iff {a b : UInt8} :
    utf8Second false a b = true ↔ (0x80 ≤ b.toNat ∧ b.toNat ≤ 0xbf) ∧
      (a.toNat = 0xe0 → 0xa0 ≤ b.toNat) ∧ (a.toNat = 0xf0 → 0x90 ≤ b.toNat) ∧
      (a.toNat = 0xf4 → b.toNat < 0x90) ∧ (a.toNat = 0xed → b.toNat < 0xa0) := by
  simp [utf8Second, isContinuation_iff, UInt8.lt_iff_toNat_lt, UInt8.le_iff_toNat_le,
    ← UInt8.toNat_inj, ← imp_iff_not_or, and_assoc]

/-- The number of bytes of a character depends on the number of its first byte. -/
theorem utf8Length?_eq (a : UInt8) :
    utf8Length? a = if a.toNat < 0x80 then some 1 else if a.toNat < 0xc2 then none
      else if a.toNat < 0xe0 then some 2 else if a.toNat < 0xf0 then some 3
      else if a.toNat < 0xf5 then some 4 else none := by
  simp only [utf8Length?, UInt8.lt_iff_toNat_lt]
  rfl

/-- The first bytes of characters of each length are those between two limits. -/
theorem utf8Length?_eq_some {a : UInt8} {n : Nat} : utf8Length? a = some n ↔
    (n = 1 ∧ a.toNat < 0x80) ∨ (n = 2 ∧ 0xc2 ≤ a.toNat ∧ a.toNat < 0xe0) ∨
      (n = 3 ∧ 0xe0 ≤ a.toNat ∧ a.toNat < 0xf0) ∨ (n = 4 ∧ 0xf0 ≤ a.toNat ∧ a.toNat < 0xf5) := by
  rw [utf8Length?_eq]
  split_ifs <;> simp <;> omega

/-- A character has a code that is none of a half. -/
theorem toNat_char (c : Char) : c.toNat < 0xd800 ∨ (0xdfff < c.toNat ∧ c.toNat < 0x110000) :=
  c.valid

/-- Every code that is none of a half is that of a character. -/
theorem exists_toNat_eq (code : Nat) (h : code < 0xd800 ∨ (0xdfff < code ∧ code < 0x110000)) :
    ∃ c : Char, c.toNat = code ∧ c.val.toNat = code :=
  ⟨Char.ofNatAux code h, rfl, rfl⟩

/-- A byte is made of its number. -/
theorem ofNat_eq (byte : UInt8) {n : Nat} (h : byte.toNat = n) : UInt8.ofNat n = byte := by
  rw [← h, UInt8.ofNat_toNat]

/-- The six bits of a continuation byte. -/
theorem exists_bits {byte : UInt8} (h : 0x80 ≤ byte.toNat ∧ byte.toNat ≤ 0xbf) :
    ∃ bits < 64, byte.toNat = bits + 128 :=
  ⟨byte.toNat - 128, by omega, by omega⟩

/-- Bytes that are one character, with its code. -/
inductive Spells : List UInt8 → Nat → Prop
  | one {a : UInt8} (ha : utf8Length? a = some 1) : Spells [a] a.toNat
  | two {a b : UInt8} (ha : utf8Length? a = some 2) (hb : utf8Second false a b = true) :
    Spells [a, b] (extend (a.toNat - 0xc0) b)
  | three {a b c : UInt8} (ha : utf8Length? a = some 3) (hb : utf8Second false a b = true)
      (hc : isContinuation c = true) :
    Spells [a, b, c] (extend (extend (a.toNat - 0xe0) b) c)
  | four {a b c d : UInt8} (ha : utf8Length? a = some 4) (hb : utf8Second false a b = true)
      (hc : isContinuation c = true) (hd : isContinuation d = true) :
    Spells [a, b, c, d] (extend (extend (extend (a.toNat - 0xf0) b) c) d)

/-- What is spelled at the front of some bytes is found there. -/
theorem Spells.findUtf8_eq {front : List UInt8} {code : Nat} (h : Spells front code)
    (rest : List UInt8) : findUtf8 false (front ++ rest) = .code code front.length := by
  rw [findUtf8.eq_def]
  cases h with
  | one ha => simp [ha]
  | two ha hb => simp [ha, hb]
  | three ha hb hc => simp [ha, hb, hc]
  | four ha hb hc hd => simp [ha, hb, hc, hd]

/-- What is found at the front of some bytes is spelled there. -/
theorem exists_spells_of_findUtf8 {bytes : List UInt8} {code length : Nat}
    (h : findUtf8 false bytes = .code code length) :
    ∃ front rest, bytes = front ++ rest ∧ Spells front code := by
  cases bytes with
  | nil => cases h
  | cons a rest =>
    rw [findUtf8.eq_def] at h
    dsimp only at h
    split at h
    · cases h
    · next ha =>
      obtain ⟨rfl, -⟩ := Found.code.inj h
      exact ⟨[a], _, rfl, .one ha⟩
    · cases h
    · next b tail ha =>
      split at h
      · next hb =>
        obtain ⟨rfl, -⟩ := Found.code.inj h
        exact ⟨[a, b], tail, rfl, .two ha hb⟩
      · cases h
    · next b tail ha =>
      split at h
      · cases h
      next hb =>
      split at h
      · split at h <;> cases h
      next c tail =>
      split at h
      · next hc =>
        obtain ⟨rfl, -⟩ := Found.code.inj h
        exact ⟨[a, b, c], tail, rfl, .three ha (by simpa using hb) hc⟩
      · cases h
    · next n b tail hone htwo hthree ha =>
      obtain rfl : n = 4 := by
        rcases utf8Length?_eq_some.mp ha with ⟨hn, -⟩ | ⟨hn, -⟩ | ⟨hn, -⟩ | ⟨hn, -⟩
        · exact absurd hn hone
        · exact absurd hn htwo
        · exact absurd hn hthree
        · exact hn
      split at h
      · cases h
      next hb =>
      split at h
      · cases h
      next c tail =>
      split at h
      · cases h
      next hc =>
      split at h
      · cases h
      next d tail =>
      split at h
      · next hd =>
        obtain ⟨rfl, -⟩ := Found.code.inj h
        exact ⟨[a, b, c, d], tail, rfl, .four ha (by simpa using hb) (by simpa using hc) hd⟩
      · cases h

/-- A character is spelled as it is written. -/
theorem spells_utf8EncodeChar (c : Char) : Spells (String.utf8EncodeChar c) c.toNat := by
  have hvalid := toNat_char c
  have hbyte : ∀ {n : Nat}, n < 256 → ∃ byte : UInt8, UInt8.ofNat n = byte ∧ byte.toNat = n :=
    fun h => ⟨_, rfl, UInt8.toNat_ofNat_of_lt' h⟩
  have hval : c.val.toNat = c.toNat := rfl
  simp only [String.utf8EncodeChar, hval]
  generalize c.toNat = v at hvalid
  split_ifs with hone htwo hthree
  · obtain ⟨a, ha, hva⟩ := hbyte (n := v) (by omega)
    rw [ha, ← hva]
    exact .one (utf8Length?_eq_some.mpr (by omega))
  · obtain ⟨a, ha, hva⟩ := hbyte (n := v / 64 % 32 + 192) (by omega)
    obtain ⟨b, hb, hvb⟩ := hbyte (n := v % 64 + 128) (by omega)
    have hcode : extend (a.toNat - 0xc0) b = v := by
      rw [extend_eq hvb, hva, Nat.add_sub_cancel]
      omega
    rw [ha, hb, ← hcode]
    exact .two (utf8Length?_eq_some.mpr (by omega)) (utf8Second_iff.mpr (by omega))
  · obtain ⟨a, ha, hva⟩ := hbyte (n := v / 4096 % 16 + 224) (by omega)
    obtain ⟨b, hb, hvb⟩ := hbyte (n := v / 64 % 64 + 128) (by omega)
    obtain ⟨c, hc, hvc⟩ := hbyte (n := v % 64 + 128) (by omega)
    have hcode : extend (extend (a.toNat - 0xe0) b) c = v := by
      rw [extend_eq hvc, extend_eq hvb, hva, Nat.add_sub_cancel]
      omega
    rw [ha, hb, hc, ← hcode]
    exact .three (utf8Length?_eq_some.mpr (by omega)) (utf8Second_iff.mpr (by omega))
      (isContinuation_iff.mpr (by omega))
  · obtain ⟨a, ha, hva⟩ := hbyte (n := v / 262144 % 8 + 240) (by omega)
    obtain ⟨b, hb, hvb⟩ := hbyte (n := v / 4096 % 64 + 128) (by omega)
    obtain ⟨c, hc, hvc⟩ := hbyte (n := v / 64 % 64 + 128) (by omega)
    obtain ⟨d, hd, hvd⟩ := hbyte (n := v % 64 + 128) (by omega)
    have hcode : extend (extend (extend (a.toNat - 0xf0) b) c) d = v := by
      rw [extend_eq hvd, extend_eq hvc, extend_eq hvb, hva, Nat.add_sub_cancel]
      omega
    rw [ha, hb, hc, hd, ← hcode]
    exact .four (utf8Length?_eq_some.mpr (by omega)) (utf8Second_iff.mpr (by omega))
      (isContinuation_iff.mpr (by omega)) (isContinuation_iff.mpr (by omega))

/-- Only characters are spelled, each in one way. -/
theorem Spells.exists_char {front : List UInt8} {code : Nat} (h : Spells front code) :
    ∃ c : Char, c.toNat = code ∧ String.utf8EncodeChar c = front := by
  cases h with
  | @one a ha =>
    have ha := utf8Length?_eq_some.mp ha
    obtain ⟨ch, hch, hval⟩ := exists_toNat_eq a.toNat (by omega)
    refine ⟨ch, hch, ?_⟩
    simp only [String.utf8EncodeChar, hval]
    rw [if_pos (by omega), UInt8.ofNat_toNat]
  | @two a b ha hb =>
    have ha := utf8Length?_eq_some.mp ha
    obtain ⟨low, hlow, hb⟩ := exists_bits (utf8Second_iff.mp hb).1
    rw [extend_eq hb]
    obtain ⟨ch, hch, hval⟩ := exists_toNat_eq ((a.toNat - 0xc0) * 64 + low) (by omega)
    refine ⟨ch, hch, ?_⟩
    simp only [String.utf8EncodeChar, hval]
    rw [if_neg (by omega), if_pos (by omega), ofNat_eq a (by omega), ofNat_eq b (by omega)]
  | @three a b c ha hb hc =>
    have ha := utf8Length?_eq_some.mp ha
    obtain ⟨hb, hover, -, -, hhalf⟩ := utf8Second_iff.mp hb
    obtain ⟨middle, hmiddle, hb⟩ := exists_bits hb
    obtain ⟨low, hlow, hc⟩ := exists_bits (isContinuation_iff.mp hc)
    rw [extend_eq hc, extend_eq hb]
    obtain ⟨ch, hch, hval⟩ :=
      exists_toNat_eq (((a.toNat - 0xe0) * 64 + middle) * 64 + low) (by omega)
    refine ⟨ch, hch, ?_⟩
    simp only [String.utf8EncodeChar, hval]
    rw [if_neg (by omega), if_neg (by omega), if_pos (by omega), ofNat_eq a (by omega),
      ofNat_eq b (by omega), ofNat_eq c (by omega)]
  | @four a b c d ha hb hc hd =>
    have ha := utf8Length?_eq_some.mp ha
    obtain ⟨hb, -, hover, hlarge, -⟩ := utf8Second_iff.mp hb
    obtain ⟨high, hhigh, hb⟩ := exists_bits hb
    obtain ⟨middle, hmiddle, hc⟩ := exists_bits (isContinuation_iff.mp hc)
    obtain ⟨low, hlow, hd⟩ := exists_bits (isContinuation_iff.mp hd)
    rw [extend_eq hd, extend_eq hc, extend_eq hb]
    obtain ⟨ch, hch, hval⟩ :=
      exists_toNat_eq ((((a.toNat - 0xf0) * 64 + high) * 64 + middle) * 64 + low) (by omega)
    refine ⟨ch, hch, ?_⟩
    simp only [String.utf8EncodeChar, hval]
    rw [if_neg (by omega), if_neg (by omega), if_neg (by omega), ofNat_eq a (by omega),
      ofNat_eq b (by omega), ofNat_eq c (by omega), ofNat_eq d (by omega)]

/-- A character is found at the front of some bytes if it is written there. -/
theorem findUtf8_append (c : Char) (rest : List UInt8) :
    findUtf8 false (String.utf8EncodeChar c ++ rest) =
      .code c.toNat (String.utf8EncodeChar c).length :=
  (spells_utf8EncodeChar c).findUtf8_eq rest

/-- What is found at the front of some bytes is a character that is written there. -/
theorem exists_char_of_findUtf8 {bytes : List UInt8} {code length : Nat}
    (h : findUtf8 false bytes = .code code length) :
    ∃ c rest, bytes = String.utf8EncodeChar c ++ rest := by
  obtain ⟨front, rest, rfl, hspells⟩ := exists_spells_of_findUtf8 h
  obtain ⟨c, -, rfl⟩ := hspells.exists_char
  exact ⟨c, rest, rfl⟩

/-- No character is at the front of another one. -/
theorem utf8EncodeChar_append_inj {c d : Char} {rest rest' : List UInt8}
    (h : String.utf8EncodeChar c ++ rest = String.utf8EncodeChar d ++ rest') :
    c = d ∧ rest = rest' := by
  have hfound := congrArg (findUtf8 false) h
  rw [findUtf8_append, findUtf8_append, Found.code.injEq] at hfound
  obtain rfl := Char.toNat_inj.mp hfound.1
  exact ⟨rfl, List.append_cancel_left h⟩

/-- The code of a character gives the character back. -/
theorem Point.ofCode_toNat (c : Char) : Point.ofCode c.toNat = .char c := by
  have hvalid := toNat_char c
  have hno : ¬(c.toNat - firstHalf < 2048 ∧ firstHalf ≤ c.toNat) := by
    simp only [firstHalf]
    omega
  rw [Point.ofCode, dif_neg hno, Char.ofNat_toNat]

/-! ## A text -/

section Decode

variable {encoding : String} {fuel first : Nat} {bytes : List UInt8} {text points : List Point}

/-- Without bytes the reader ends with what it has read. -/
theorem decodeWith_nil :
    decodeWith encoding (findUtf8 false) fuel first [] text = .ok text.reverse := by
  cases fuel <;> rfl

/-- The reader goes on behind a character at the front. -/
theorem decodeWith_char (c : Char) (rest : List UInt8) :
    decodeWith encoding (findUtf8 false) (fuel + 1) first (String.utf8EncodeChar c ++ rest) text =
      decodeWith encoding (findUtf8 false) fuel (first + (String.utf8EncodeChar c).length) rest
        (.char c :: text) := by
  have hfound := findUtf8_append c rest
  have hrest : (String.utf8EncodeChar c ++ rest).drop (String.utf8EncodeChar c).length = rest :=
    List.drop_left
  obtain ⟨byte, more, hbytes⟩ := List.exists_cons_of_ne_nil String.utf8EncodeChar_ne_nil
  rw [hbytes, List.cons_append] at hfound hrest ⊢
  simp only [decodeWith, hfound, hrest, Point.ofCode_toNat]

/-- The reader does not get past bytes that begin with no character. -/
theorem decodeWith_ne_ok (hbytes : bytes ≠ [])
    (hno : ∀ c rest, bytes ≠ String.utf8EncodeChar c ++ rest) :
    decodeWith encoding (findUtf8 false) (fuel + 1) first bytes text ≠ .ok points := by
  obtain ⟨byte, rest, rfl⟩ := List.exists_cons_of_ne_nil hbytes
  cases hfound : findUtf8 false (byte :: rest) with
  | code code length =>
    obtain ⟨c, more, heq⟩ := exists_char_of_findUtf8 hfound
    exact absurd heq (hno c more)
  | fault length reason => simp [decodeWith, hfound]

/-- No characters are written without a byte. -/
theorem exists_chars_nil :
    (∃ chars : List Char, points = text.reverse ++ chars.map .char ∧
      [] = chars.flatMap String.utf8EncodeChar) ↔ text.reverse = points := by
  constructor
  · rintro ⟨chars, rfl, hbytes⟩
    cases chars with
    | nil => simp
    | cons c chars => simp at hbytes
  · rintro rfl
    exact ⟨[], by simp, rfl⟩

/-- What is read is what was read before and the characters of the bytes. -/
theorem decodeWith_eq_ok_iff (hfuel : bytes.length ≤ fuel) :
    decodeWith encoding (findUtf8 false) fuel first bytes text = .ok points ↔
      ∃ chars : List Char, points = text.reverse ++ chars.map .char ∧
        bytes = chars.flatMap String.utf8EncodeChar := by
  induction fuel generalizing first bytes text with
  | zero =>
    obtain rfl : bytes = [] := List.eq_nil_of_length_eq_zero (by omega)
    rw [decodeWith_nil, Except.ok.injEq, exists_chars_nil]
  | succ fuel ih =>
    by_cases hfront : ∃ c rest, bytes = String.utf8EncodeChar c ++ rest
    · obtain ⟨c, rest, rfl⟩ := hfront
      have hpos := List.length_pos_of_ne_nil (String.utf8EncodeChar_ne_nil (c := c))
      rw [List.length_append] at hfuel
      rw [decodeWith_char, ih (by omega)]
      constructor
      · rintro ⟨chars, rfl, rfl⟩
        exact ⟨c :: chars, by simp, by simp⟩
      · rintro ⟨chars, rfl, hbytes⟩
        cases chars with
        | nil => exact absurd hbytes (by simp)
        | cons d chars =>
          obtain ⟨rfl, rfl⟩ := utf8EncodeChar_append_inj hbytes
          exact ⟨chars, by simp, rfl⟩
    · simp only [not_exists] at hfront
      by_cases hnil : bytes = []
      · rw [hnil, decodeWith_nil, Except.ok.injEq, exists_chars_nil]
      · refine iff_of_false (decodeWith_ne_ok hnil hfront) ?_
        rintro ⟨chars, -, rfl⟩
        cases chars with
        | nil => exact hnil rfl
        | cons c chars => exact hfront c _ rfl

end Decode

/-- Bytes are read as text exactly if they are its characters in UTF-8. -/
theorem decodeUtf8_eq_ok_iff {bytes : List UInt8} {points : List Point} :
    Encoding.decodeUtf8 bytes = .ok points ↔
      ∃ chars : List Char, points = chars.map .char ∧
        bytes = chars.flatMap String.utf8EncodeChar :=
  decodeWith_eq_ok_iff (Nat.le_refl _)

end Kleene.Text
