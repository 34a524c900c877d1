import JsonnetNav.Text.Literal
import Mathlib

/-! # Strings between double quotes

A string is written between double quotes with escapes for backslashes, quotes and line
breaks. Reading it back takes every escape for the character that it spells, and every byte
of any other character for a code point of its own. A character of the ASCII range has one
byte, which is its number, and all other characters have more. So a string is read back as it
is exactly if it is all ASCII. Other strings are read as other texts, though no two of them as
the same one.
-/

namespace JsonnetNav.Text

/-- How a character is written between double quotes. -/
def spell (c : Char) : List Char :=
  if c = '\\' then ['\\', '\\']
  else if c = '"' then ['\\', '"']
  else if c = '\n' then ['\\', 'n']
  else [c]

/-- A string as it is written between double quotes. -/
def written (s : String) : String :=
  String.ofList (s.toList.flatMap spell)

/-- The bytes of a row of characters. -/
def utf8 (chars : List Char) : List UInt8 :=
  chars.flatMap String.utf8EncodeChar

/-- The text that has a code point for each byte of a string. -/
def ofUtf8 (s : String) : Text :=
  (utf8 s.toList).map CodePoint.ofByte

/-- The characters that are written with one byte. -/
def IsAscii (c : Char) : Prop :=
  c.toNat < 0x80

instance (c : Char) : Decidable (IsAscii c) :=
  inferInstanceAs (Decidable (_ < _))

/-! ## Bytes of characters -/

theorem utf8EncodeChar_ascii {c : Char} (ascii : IsAscii c) :
    String.utf8EncodeChar c = [UInt8.ofNat c.toNat] := by
  have small : c.val.toNat ≤ 127 := Nat.le_of_lt_succ ascii
  simp only [String.utf8EncodeChar, small, if_true]
  rfl

/-- The bytes of a character outside of the ASCII range are outside of it, too. -/
theorem high_of_mem_utf8EncodeChar {c : Char} (wide : ¬ IsAscii c) {b : UInt8}
    (member : b ∈ String.utf8EncodeChar c) : 0x80 ≤ b.toNat := by
  have large : ¬ c.val.toNat ≤ 127 := fun small => wide (Nat.lt_succ_of_le small)
  simp only [String.utf8EncodeChar, large, if_false] at member
  split at member
  · simp only [List.mem_cons, List.not_mem_nil, or_false] at member
    rcases member with rfl | rfl <;> simp <;> omega
  · split at member
    · simp only [List.mem_cons, List.not_mem_nil, or_false] at member
      rcases member with rfl | rfl | rfl <;> simp <;> omega
    · simp only [List.mem_cons, List.not_mem_nil, or_false] at member
      rcases member with rfl | rfl | rfl | rfl <;> simp <;> omega

theorem toNat_byte_of_ascii {c : Char} (ascii : IsAscii c) :
    (UInt8.ofNat c.toNat).toNat = c.toNat :=
  UInt8.toNat_ofNat_of_lt (Nat.lt_trans ascii (by decide))

theorem ofByte_of_ascii {c : Char} (ascii : IsAscii c) :
    CodePoint.ofByte (UInt8.ofNat c.toNat) = CodePoint.ofChar c :=
  Fin.ext (toNat_byte_of_ascii ascii)

theorem length_utf8EncodeChar_eq_one {c : Char} :
    (String.utf8EncodeChar c).length = 1 ↔ IsAscii c := by
  rw [String.length_utf8EncodeChar, Char.utf8Size_eq_one_iff, UInt32.le_iff_toNat_le]
  exact Nat.lt_succ_iff.symm

/-- There are at least as many bytes as characters, and just as many exactly if all
    characters are ASCII. -/
theorem length_utf8 (chars : List Char) :
    chars.length ≤ (utf8 chars).length ∧
      ((utf8 chars).length = chars.length ↔ ∀ c ∈ chars, IsAscii c) := by
  induction chars with
  | nil => simp [utf8]
  | cons c chars ih =>
      obtain ⟨le, same⟩ := ih
      have first : 1 ≤ (String.utf8EncodeChar c).length := by
        rw [String.length_utf8EncodeChar]
        exact c.utf8Size_pos
      rw [utf8, List.flatMap_cons, ← utf8, List.length_append, List.length_cons,
        List.forall_mem_cons, ← same, ← length_utf8EncodeChar_eq_one]
      omega

theorem utf8_injective {chars chars' : List Char} (same : utf8 chars = utf8 chars') :
    chars = chars' := by
  have encoded : chars.utf8Encode = chars'.utf8Encode := congrArg List.toByteArray same
  exact String.ofList_injective (String.toByteArray_inj.mp encoded)

theorem ofUtf8_injective {s s' : String} (same : ofUtf8 s = ofUtf8 s') : s = s' := by
  have ofByte : Function.Injective CodePoint.ofByte := fun a b number =>
    UInt8.toNat_inj.mp (Fin.mk.inj number)
  exact String.toList_injective (utf8_injective (List.map_injective_iff.mpr ofByte same))

theorem map_utf8_of_ascii {chars : List Char} (ascii : ∀ c ∈ chars, IsAscii c) :
    (utf8 chars).map CodePoint.ofByte = chars.map CodePoint.ofChar := by
  induction chars with
  | nil => rfl
  | cons c chars ih =>
      obtain ⟨first, rest⟩ := List.forall_mem_cons.mp ascii
      rw [utf8, List.flatMap_cons, ← utf8, utf8EncodeChar_ascii first, List.map_append, ih rest,
        List.map_singleton, ofByte_of_ascii first]
      rfl

/-- A string is the text of its bytes exactly if it is all ASCII. -/
theorem ofUtf8_eq_ofString_iff (s : String) :
    ofUtf8 s = ofString s ↔ ∀ c ∈ s.toList, IsAscii c := by
  constructor
  · intro same
    have lengths : (utf8 s.toList).length = s.toList.length := by
      simpa [ofUtf8, ofString] using congrArg List.length same
    exact (length_utf8 s.toList).2.mp lengths
  · exact map_utf8_of_ascii

/-! ## Reading back -/

namespace Escape

theorem decodeBytes?_plain {b : UInt8} (plain : b.toNat ≠ 0x5C) (rest : List UInt8) :
    decodeBytes? (b :: rest) = (decodeBytes? rest).map (CodePoint.ofByte b :: ·) := by
  rw [decodeBytes?, if_neg plain]

theorem decodeBytes?_plain_append {bytes : List UInt8} (plain : ∀ b ∈ bytes, b.toNat ≠ 0x5C)
    (rest : List UInt8) :
    decodeBytes? (bytes ++ rest) = (decodeBytes? rest).map (bytes.map CodePoint.ofByte ++ ·) := by
  induction bytes with
  | nil => simp
  | cons b bytes ih =>
      obtain ⟨first, others⟩ := List.forall_mem_cons.mp plain
      rw [List.cons_append, decodeBytes?_plain first, ih others, Option.map_map]
      rfl

theorem decodeBytes?_letter {b : UInt8} {p : CodePoint} (spelled : letter? b = some p)
    (rest : List UInt8) :
    decodeBytes? (0x5C :: b :: rest) = (decodeBytes? rest).map (p :: ·) := by
  have read : afterBackslash? (b :: rest) = some ([p], rest) := by
    simp only [afterBackslash?, spelled]
  rw [decodeBytes?, if_pos (by rfl)]
  split
  · rename_i t rest' found
    rw [read] at found
    cases found
    rfl
  · rename_i failed
    rw [read] at failed
    cases failed

/-- Whatever follows it, a written character is read as its bytes. -/
theorem decodeBytes?_spell (c : Char) (rest : List UInt8) :
    decodeBytes? (utf8 (spell c) ++ rest) =
      (decodeBytes? rest).map ((String.utf8EncodeChar c).map CodePoint.ofByte ++ ·) := by
  by_cases backslash : c = '\\'
  · subst backslash
    exact decodeBytes?_letter (b := 0x5C) rfl rest
  by_cases quote : c = '"'
  · subst quote
    exact decodeBytes?_letter (b := 0x22) rfl rest
  by_cases lineBreak : c = '\n'
  · subst lineBreak
    exact decodeBytes?_letter (b := 0x6E) rfl rest
  have itself : utf8 (spell c) = String.utf8EncodeChar c := by
    simp [utf8, spell, backslash, quote, lineBreak]
  rw [itself]
  refine decodeBytes?_plain_append (fun b member => ?_) rest
  by_cases ascii : IsAscii c
  · rw [utf8EncodeChar_ascii ascii, List.mem_singleton] at member
    rw [member, toNat_byte_of_ascii ascii]
    intro same
    exact backslash (Char.toNat_inj.mp same)
  · have high := high_of_mem_utf8EncodeChar ascii member
    omega

theorem decodeBytes?_written (chars : List Char) :
    decodeBytes? (utf8 (chars.flatMap spell)) = some ((utf8 chars).map CodePoint.ofByte) := by
  induction chars with
  | nil => simp [utf8, decodeBytes?]
  | cons c chars ih =>
      have split : utf8 ((c :: chars).flatMap spell) = utf8 (spell c) ++ utf8 (chars.flatMap spell) := by
        simp [utf8]
      rw [split, decodeBytes?_spell, ih]
      simp [utf8]

end Escape

theorem literalValue_written (s : String) : literalValue "\"" (written s) = .ok (ofUtf8 s) := by
  have read : Escape.decode? (written s) = some (ofUtf8 s) := by
    rw [Escape.decode?, written, String.toList_ofList]
    exact Escape.decodeBytes?_written s.toList
  simp [literalValue, read]

/-- Every string that is written between double quotes can be read. What is read has a code
    point for each byte of the string, so it is the string itself exactly if all characters
    are ASCII. No two strings are read as the same text. -/
theorem written_string_read (s : String) :
    literalValue "\"" (written s) = .ok (ofUtf8 s) ∧
    (literalValue "\"" (written s) = .ok (ofString s) ↔ ∀ c ∈ s.toList, IsAscii c) ∧
    ∀ s', literalValue "\"" (written s') = literalValue "\"" (written s) → s' = s := by
  refine ⟨literalValue_written s, ?_, fun s' same => ?_⟩
  · rw [literalValue_written, Except.ok.injEq]
    exact ofUtf8_eq_ofString_iff s
  · rw [literalValue_written, literalValue_written] at same
    exact ofUtf8_injective (Except.ok.inj same)

/-- A letter with an accent is read as two other characters. The same letter in a verbatim
    string is read as it is. -/
theorem accented_letter_misread :
    written "é" = "é" ∧ literalValue "\"" (written "é") = .ok (ofString "Ã©") ∧
    literalValue "\"" (written "é") ≠ .ok (ofString "é") ∧
    literalValue "@\"" "é" = .ok (ofString "é") := by
  refine ⟨by decide, by rw [literalValue_written]; decide, ?_, by decide⟩
  rw [literalValue_written]
  decide

end JsonnetNav.Text
