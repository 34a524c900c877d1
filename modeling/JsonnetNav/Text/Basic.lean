/-! # Text as code points

A string literal can spell every code point, also one half of a surrogate pair
on its own, which no `Char` is. Names and string values are therefore lists of
code points, and each code point counts as one character.
-/

namespace JsonnetNav

/-- A code point of the Unicode code space, surrogates included. -/
abbrev CodePoint := Fin 0x110000

namespace CodePoint

/-- The code point of a character. -/
def ofChar (c : Char) : CodePoint :=
  ⟨c.toNat, by
    rcases c.valid with h | h
    · exact Nat.lt_trans h (by decide)
    · exact h.2⟩

/-- The code point whose number is the byte. -/
def ofByte (b : UInt8) : CodePoint :=
  ⟨b.toNat, Nat.lt_of_lt_of_le b.toNat_lt (by decide)⟩

/-- Surrogates are the code points that are no characters. -/
def isSurrogate (p : CodePoint) : Bool :=
  0xD800 ≤ p.val && p.val ≤ 0xDFFF

/-- Upper-case hexadecimal digits, at least four of them. -/
def hex (p : CodePoint) : String :=
  let digits := (Nat.toDigits 16 p.val).map Char.toUpper
  String.ofList (List.replicate (4 - digits.length) '0' ++ digits)

/-- A code point as it is shown: itself, or its number if it is no character. -/
def display (p : CodePoint) : String :=
  if p.isSurrogate then "<U+" ++ p.hex ++ ">" else String.singleton (Char.ofNat p.val)

end CodePoint

/-- A text is a list of code points. -/
abbrev Text := List CodePoint

namespace Text

/-- The code points of a string. -/
def ofString (s : String) : Text :=
  s.toList.map CodePoint.ofChar

/-- The text as it is shown to a reader. -/
def display (t : Text) : String :=
  String.join (t.map CodePoint.display)

/-- Texts are ordered by the first code point in which they differ, and a text comes
    before what it is the beginning of. -/
def precedes : Text → Text → Bool
  | [], _ => true
  | _ :: _, [] => false
  | p :: t, q :: u => p.val < q.val || (p = q && precedes t u)

end Text

end JsonnetNav
