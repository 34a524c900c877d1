import JsonnetNav.Text.Basic

/-! # Texts as bytes

The name of a file is a row of bytes, and a text stands for the bytes of its UTF-8 form.
A byte that belongs to no character is kept as a surrogate, so that every row of bytes
can be read as a text which stands for these bytes again.
-/

namespace JsonnetNav

namespace CodePoint

/-- The surrogate that stands for a byte which belongs to no character. -/
def ofStrayByte (b : UInt8) : CodePoint :=
  ⟨0xDC00 + b.toNat, by have := b.toNat_lt; omega⟩

/-- The bytes that a code point stands for. Of the surrogates only those of stray bytes
    stand for any. -/
def bytes? (p : CodePoint) : Option (List UInt8) :=
  if 0xDC80 ≤ p.val ∧ p.val ≤ 0xDCFF then some [UInt8.ofNat (p.val - 0xDC00)]
  else if p.isSurrogate then none
  else some (String.utf8EncodeChar (Char.ofNat p.val))

end CodePoint

namespace Text

/-- The bytes that a text stands for, if all of its code points stand for some. -/
def bytes? (t : Text) : Option (List UInt8) :=
  (t.mapM CodePoint.bytes?).map List.flatten

namespace Utf8

/-- How many bytes follow the first byte of a character that takes more than one. -/
def followers (b : UInt8) : Nat :=
  let n := b.toNat
  if 0xC2 ≤ n ∧ n ≤ 0xDF then 1
  else if 0xE0 ≤ n ∧ n ≤ 0xEF then 2
  else if 0xF0 ≤ n ∧ n ≤ 0xF4 then 3
  else 0

/-- Bytes that can only follow the first byte of a character. -/
def isFollower (b : UInt8) : Bool :=
  0x80 ≤ b.toNat && b.toNat ≤ 0xBF

/-- The least number that is written with so many following bytes. -/
def leastWith : Nat → Nat
  | 0 => 0
  | 1 => 0x80
  | 2 => 0x800
  | _ => 0x10000

/-- The number in a first byte and the bytes that follow it. Of a following byte six bits
    count. -/
def number (b : UInt8) (tail : List UInt8) : Nat :=
  tail.foldl (fun n c => 64 * n + c.toNat % 64) (b.toNat % Nat.pow 2 (6 - tail.length))

/-- The character of more than one byte that starts with a byte. A character is written
    with as few bytes as possible. -/
def character? (b : UInt8) (rest : List UInt8) : Option CodePoint :=
  let tail := rest.take (followers b)
  if tail.length = followers b ∧ tail ≠ [] ∧ tail.all isFollower
      ∧ leastWith tail.length ≤ number b tail then
    if h : number b tail < 0x110000 then
      let p : CodePoint := ⟨number b tail, h⟩
      if p.isSurrogate then none else some p
    else none
  else none

/-- The code point at the start of a row of bytes, and how many further bytes it takes. -/
def first (b : UInt8) (rest : List UInt8) : CodePoint × Nat :=
  if b.toNat < 0x80 then (.ofByte b, 0)
  else
    match character? b rest with
    | some p => (p, followers b)
    | none => (.ofStrayByte b, 0)

end Utf8

/-- The text of a row of bytes. -/
def ofBytes : List UInt8 → Text
  | [] => []
  | b :: rest => (Utf8.first b rest).1 :: ofBytes (rest.drop (Utf8.first b rest).2)
termination_by bytes => bytes.length
decreasing_by
  rw [List.length_drop, List.length_cons]
  exact Nat.lt_succ_of_le (Nat.sub_le _ _)

end Text

end JsonnetNav
