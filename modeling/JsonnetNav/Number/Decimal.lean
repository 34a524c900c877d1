import JsonnetNav.Number.Binary64
import JsonnetNav.Text.Digit

/-! # Reading numbers

A number is an optional sign and either decimal digits with an optional point and
exponent, or one of the words for infinity and not-a-number. Blanks around it are
ignored, digits of every script are read, and a single underscore may stand
between two digits.
-/

namespace JsonnetNav.Number

/-- A digit, blank or ASCII character in its ASCII form; nothing else can be part
    of a number. -/
def plain? (c : Char) : Option Char :=
  if c.toNat < 127 then some c
  else if Text.isWideBlank c then some ' '
  else (Text.digitValue? c).map fun d => Char.ofNat (0x30 + d)

/-- The characters without the blanks at both ends. -/
def strip (cs : List Char) : List Char :=
  ((cs.dropWhile Text.isNarrowBlank).reverse.dropWhile Text.isNarrowBlank).reverse

/-- The characters without underscores, each of which must stand between two
    digits. -/
def withoutUnderscores? : (afterDigit : Bool) → List Char → Option (List Char)
  | _, [] => some []
  | afterDigit, '_' :: c :: rest =>
    if afterDigit && c.isDigit then (withoutUnderscores? true rest).map (c :: ·) else none
  | _, c :: rest => if c = '_' then none else (withoutUnderscores? c.isDigit rest).map (c :: ·)

/-- The value of a row of digits. -/
def digitsValue (digits : List Char) : Nat :=
  digits.foldl (fun n c => 10 * n + (c.toNat - 0x30)) 0

/-- An optional sign, and what follows it. -/
def sign : List Char → Bool × List Char
  | '-' :: rest => (true, rest)
  | '+' :: rest => (false, rest)
  | cs => (false, cs)

/-- The exponent part that a number may end with; none of it is exponent zero. -/
def exponent? : List Char → Option Int
  | [] => some 0
  | e :: rest =>
    let (negative, digits) := sign rest
    if (e = 'e' ∨ e = 'E') ∧ digits ≠ [] ∧ digits.all Char.isDigit then
      some (if negative then -(digitsValue digits : Int) else digitsValue digits)
    else none

/-- Digits with an optional point, and an optional exponent. -/
def unsigned? (negative : Bool) (cs : List Char) : Option Binary64 :=
  let whole := cs.takeWhile Char.isDigit
  let rest := cs.dropWhile Char.isDigit
  let (fraction, rest) :=
    match rest with
    | '.' :: rest => (rest.takeWhile Char.isDigit, rest.dropWhile Char.isDigit)
    | _ => ([], rest)
  if whole = [] ∧ fraction = [] then none
  else (exponent? rest).map fun e =>
    Binary64.ofDecimal negative (digitsValue (whole ++ fraction)) (e - fraction.length)

/-- The number that the text spells, if it spells one. -/
def read? (text : String) : Option Binary64 := do
  let cs ← text.toList.mapM plain?
  let cs ← withoutUnderscores? false (strip cs)
  let (negative, cs) := sign cs
  let word := String.ofList (cs.map Char.toLower)
  if word = "inf" ∨ word = "infinity" then some (.infinite negative)
  else if word = "nan" then some .nan
  else unsigned? negative cs

end JsonnetNav.Number
