import JsonnetNav.Number.Binary64

/-! # The shortest decimal form of a number

A number is written with the fewest digits that read back as the same number, and
of those the nearest; of two equally near ones the even one. A finite number always has a point or an exponent; exponents
are used below `10 ^ -4` and from `10 ^ 16` on.
-/

namespace JsonnetNav.Number

/-- A non-negative fraction. -/
structure Ratio where
  num : Nat
  den : Nat
  deriving Repr

namespace Ratio

/-- `n * 2 ^ e` as a ratio. -/
def ofBinary (n : Nat) (e : Int) : Ratio :=
  match e with
  | .ofNat e => ⟨n * Nat.pow 2 e, 1⟩
  | .negSucc e => ⟨n, Nat.pow 2 (e + 1)⟩

/-- `n * 10 ^ e` as a ratio. -/
def ofDecimal (n : Nat) (e : Int) : Ratio :=
  match e with
  | .ofNat e => ⟨n * Nat.pow 10 e, 1⟩
  | .negSucc e => ⟨n, Nat.pow 10 (e + 1)⟩

/-- Strictly smaller. -/
def lt (a b : Ratio) : Bool :=
  a.num * b.den < b.num * a.den

/-- Smaller or equal. -/
def le (a b : Ratio) : Bool :=
  a.num * b.den ≤ b.num * a.den

/-- The distance between two ratios. -/
def distance (a b : Ratio) : Ratio :=
  let x := a.num * b.den
  let y := b.num * a.den
  ⟨(x - y) + (y - x), a.den * b.den⟩

end Ratio

/-- The numbers that are read as `mantissa * 2 ^ exponent`: those between the
    midpoints to its two neighbours, the midpoints included for an even mantissa. -/
def readsBack (mantissa : Nat) (exponent : Int) (r : Ratio) : Bool :=
  let low :=
    if mantissa = Nat.pow 2 52 ∧ Binary64.minExponent < exponent then
      Ratio.ofBinary (4 * mantissa - 1) (exponent - 2)
    else Ratio.ofBinary (2 * mantissa - 1) (exponent - 1)
  let high := Ratio.ofBinary (2 * mantissa + 1) (exponent - 1)
  if mantissa % 2 = 0 then low.le r && r.le high else low.lt r && r.lt high

/-- The number of digits before the point: the least `k` with `r < 10 ^ k`. It is
    found from the sizes of the two parts, which give it up to one. -/
def pointPosition (r : Ratio) : Int :=
  let guess : Int := ((Nat.toDigits 10 r.num).length : Int) - (Nat.toDigits 10 r.den).length
  if r.lt (Ratio.ofDecimal 1 guess) then guess else guess + 1

/-- The best decimal whose last digit counts `10 ^ unit`: of the two neighbours on
    that grid the nearer one that reads back, a tie going to the even one. The answer
    is a whole number of units. -/
def withDigits? (mantissa : Nat) (exponent : Int) (value : Ratio) (unit : Int) : Option Nat :=
  let grid := Ratio.ofDecimal 1 unit
  let below := value.num * grid.den / (value.den * grid.num)
  let above := below + 1
  let reads n := readsBack mantissa exponent (Ratio.ofDecimal n unit)
  let toBelow := (Ratio.ofDecimal below unit).distance value
  let toAbove := (Ratio.ofDecimal above unit).distance value
  match reads below, reads above with
  | true, true =>
    some (if toBelow.lt toAbove then below
      else if toAbove.lt toBelow then above
      else below + below % 2)
  | true, false => some below
  | false, true => some above
  | false, false => none

/-- Tries more and more digits, at most `fuel` more. -/
def search (mantissa : Nat) (exponent : Int) (value : Ratio) (unit : Int) :
    (fuel : Nat) → Nat × Int
  | 0 => (0, unit)
  | fuel + 1 =>
    match withDigits? mantissa exponent value unit with
    | some n => (n, unit)
    | none => search mantissa exponent value (unit - 1) fuel

/-- The shortest decimal for a positive number: its digits, and the position of the
    point after the first of them. -/
def shortest (mantissa : Nat) (exponent : Int) : List Char × Int :=
  let value := Ratio.ofBinary mantissa exponent
  let (n, unit) := search mantissa exponent value (pointPosition value - 1) 17
  let digits := Nat.toDigits 10 n
  let position := (digits.length : Int) + unit
  ((digits.reverse.dropWhile (· = '0')).reverse, position)

/-- Digits with a point in them, and zeros where the digits do not reach. -/
def positional (digits : List Char) (position : Int) : List Char :=
  if position ≤ 0 then ['0', '.'] ++ List.replicate (-position).toNat '0' ++ digits
  else
    let whole := digits.take position.toNat
    let fraction := digits.drop position.toNat
    whole ++ List.replicate (position.toNat - whole.length) '0' ++ '.' ::
      (if fraction = [] then ['0'] else fraction)

/-- One digit before the point, and an exponent of at least two digits. -/
def scientific (digits : List Char) (position : Int) : List Char :=
  let exponent := position - 1
  let magnitude := Nat.toDigits 10 exponent.natAbs
  let point := match digits with
    | d :: rest@(_ :: _) => d :: '.' :: rest
    | ds => ds
  point ++ ['e', if exponent < 0 then '-' else '+']
    ++ List.replicate (2 - magnitude.length) '0' ++ magnitude

/-- The written form of a number. -/
def toText : Binary64 → String
  | .nan => "nan"
  | .infinite negative => if negative then "-inf" else "inf"
  | .finite negative mantissa exponent =>
    let body :=
      if mantissa = 0 then ['0', '.', '0']
      else
        let (digits, position) := shortest mantissa exponent
        if -4 < position ∧ position ≤ 16 then positional digits position
        else scientific digits position
    String.ofList (if negative then '-' :: body else body)

end JsonnetNav.Number
