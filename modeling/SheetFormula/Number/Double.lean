import SheetFormula.Number.Decimal

/-!
# Double precision numbers

A `Double` is the 64 bits of a binary floating point number.  `Double.ofDecimal?` rounds a decimal
to the nearest one, a tie to the even mantissa.  `Double.shortest` finds the fewest decimal digits
that round back to a number, and among those the nearest to it; `Double.plain` writes these digits.
-/

namespace SheetFormula

/-- A binary floating point number of 64 bits. -/
structure Double where
  bits : UInt64
deriving DecidableEq

namespace Double

/-- Whether the sign bit is set. -/
def negative (x : Double) : Bool := x.bits.toNat ≥ Nat.pow 2 63

/-- The eleven bits of the exponent. -/
def exponentField (x : Double) : Nat := x.bits.toNat / Nat.pow 2 52 % Nat.pow 2 11

/-- The 52 bits of the fraction. -/
def fractionField (x : Double) : Nat := x.bits.toNat % Nat.pow 2 52

/-- Whether the number is infinite or no number. -/
def isSpecial (x : Double) : Bool := x.exponentField == 2047

/-- Whether the bits denote no number. -/
def isNaN (x : Double) : Bool := x.isSpecial && x.fractionField != 0

/-- Whether the number is zero, of either sign. -/
def isZero (x : Double) : Bool := x.exponentField == 0 && x.fractionField == 0

/-- The bits that denote no number. -/
def nan : Double := ⟨0x7FF8000000000001⟩

/-- Infinity with a sign. -/
def infinity (negative : Bool) : Double :=
  ⟨if negative then 0xFFF0000000000000 else 0x7FF0000000000000⟩

/-- Equality of numbers: zeros of both signs are equal, and what is no number equals nothing. -/
def sameValue (x y : Double) : Bool :=
  !x.isNaN && !y.isNaN && (x.bits == y.bits || (x.isZero && y.isZero))

/-- A finite number is `mantissa · 2 ^ power`. -/
def mantissa (x : Double) : Nat :=
  if x.exponentField = 0 then x.fractionField else Nat.pow 2 52 + x.fractionField

/-- The power of two of the last mantissa bit. -/
def power (x : Double) : Int := if x.exponentField = 0 then -1074 else x.exponentField - 1075

/-- `n / d` rounded to an integer, a tie to the even neighbour. -/
def roundedQuotient (n d : Nat) : Nat :=
  let q := n / d
  let r := n % d
  if 2 * r < d then q else if d < 2 * r then q + 1 else q + q % 2

/-- The numerator and denominator of `n · base ^ power / d`. -/
def scaled (base n d : Nat) : Int → Nat × Nat
  | .ofNat p => (n * Nat.pow base p, d)
  | .negSucc p => (n, d * Nat.pow base (p + 1))

/-- The double nearest to `±n / d`, unless that is too large. -/
def ofFraction? (negative : Bool) (n d : Nat) : Option Double :=
  let signBit := if negative then Nat.pow 2 63 else 0
  if n = 0 then some ⟨UInt64.ofNat signBit⟩
  else
    let guess : Int := n.log2 - d.log2
    -- the binary exponent of the fraction is `guess` or one less
    let (n₁, d₁) := scaled 2 n d (-guess)
    let top : Int := if n₁ < d₁ then guess - 1 else guess
    let power : Int := max (top - 52) (-1074)
    let (n', d') := scaled 2 n d (-power)
    let m := roundedQuotient n' d'
    -- rounding up may carry into the exponent, which adding the fields takes care of
    let field : Nat := (power + 1074).toNat
    let magnitude := field * Nat.pow 2 52 + m
    if magnitude < 2047 * Nat.pow 2 52 then some ⟨UInt64.ofNat (signBit + magnitude)⟩ else none

/-- The double nearest to a decimal, unless that is too large. -/
def ofDecimal? (d : Decimal) : Option Double :=
  let (n, den) := scaled 10 d.coefficient 1 d.exponent
  ofFraction? d.negative n den

/-- The decimal digits of a positive number and the place of its point: `digits` stands for
`0.digits · 10 ^ point`. -/
structure Digits where
  digits : List Char
  point : Int

/-- The number of decimal digits in front of the point of `n / d`, negative or zero below `1 / 10`.
-/
def decimalPoint (n d : Nat) : Int :=
  let guess : Int := (Nat.toDigits 10 n).length - (Nat.toDigits 10 d).length
  let (n', d') := scaled 10 n d (-guess)
  if n' < d' then guess else guess + 1

/-- The coefficient of `count` digits that rounds back to the number.  Of two the nearer is taken,
and of two as near the even one. -/
def roundTrip? (x : Double) (n d : Nat) (point : Int) (count : Nat) : Option Nat :=
  let (gridN, gridD) := scaled 10 n d (count - point)
  let below := gridN / gridD
  let back (coefficient : Nat) : Bool :=
    let (cn, cd) := scaled 10 coefficient 1 (point - count)
    ofFraction? x.negative cn cd == some x
  let nearer := roundedQuotient gridN gridD
  let farther := if nearer = below then below + 1 else below
  if back nearer then some nearer else if back farther then some farther else none

/-- The fewest digits, from `count` on, that round back to the number. -/
def shortestFrom (x : Double) (n d : Nat) (point : Int) : (fuel count : Nat) → Nat × Nat
  | 0, count => (((scaled 10 n d (count - point)).1 / (scaled 10 n d (count - point)).2), count)
  | fuel + 1, count =>
    match roundTrip? x n d point count with
    | some coefficient => (coefficient, count)
    | none => shortestFrom x n d point fuel (count + 1)

/-- The fewest decimal digits that round back to a finite number. -/
def shortest (x : Double) : Digits :=
  if x.isZero then ⟨['0'], 1⟩
  else
    let (n, d) := scaled 2 x.mantissa 1 x.power
    let point := decimalPoint n d
    let (coefficient, count) := shortestFrom x n d point 17 1
    let digits := Nat.toDigits 10 coefficient
    let point := point + (digits.length - count : Int)
    let trimmed := (digits.reverse.dropWhile (· == '0')).reverse
    ⟨trimmed, point⟩

/-- The sign of a number as written. -/
def sign (x : Double) : List Char := if x.negative then ['-'] else []

/-- How an infinite number, or what is no number, is written. -/
def specialName (x : Double) : Text :=
  if x.isNaN then "NaN" else if x.negative then "-Inf" else "+Inf"

/-- Digits in full around the point. -/
def Digits.positional (ds : Digits) : List Char :=
  match ds.point with
  | .ofNat 0 => '0' :: '.' :: ds.digits
  | .negSucc zeros => '0' :: '.' :: (List.replicate (zeros + 1) '0' ++ ds.digits)
  | .ofNat whole =>
    if ds.digits.length ≤ whole then ds.digits ++ List.replicate (whole - ds.digits.length) '0'
    else ds.digits.take whole ++ '.' :: ds.digits.drop whole

/-- The shortest digits of a number, without an exponent. -/
def plain (x : Double) : Text :=
  if x.isSpecial then x.specialName else .ofChars (x.sign ++ x.shortest.positional)

end Double

end SheetFormula
