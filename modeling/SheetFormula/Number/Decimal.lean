import SheetFormula.Text.Casing
import SheetFormula.Text.Integer

/-!
# Decimal numbers

A `Decimal` is a sign, a coefficient and a power of ten, so that `1.50` and `1.5` are different
decimals of the same value.  The module reads decimals (`Decimal.parse`), rounds them to a number of
digits (`Decimal.round`), compares their values (`Decimal.sameValue`) and writes them in full
(`Decimal.plain`) or with an exponent (`Decimal.scientific`).

Exponents are limited: both the exponent that is written and the exponent of the leading digit must
lie between `-exponentLimit` and `exponentLimit`.
-/

namespace SheetFormula

/-- The number `±coefficient · 10 ^ exponent`. -/
structure Decimal where
  negative : Bool
  coefficient : Nat
  exponent : Int
deriving DecidableEq

/-- Why a text is no decimal number. -/
inductive DecimalFault
  /-- A sign follows the sign. -/
  | secondSign (whole : Text)
  /-- What follows the mark of an undefined number is no number. -/
  | payload (rest : Text) (fault : IntegerFault)
  /-- What follows the exponent mark is no exponent. -/
  | exponent (rest : Text) (fault : IntegerFault)
  /-- The digits are none or are mixed with something else. -/
  | mantissa (rest : Text)
  /-- The exponent lies outside of the limits. -/
  | exponentOutOfRange
deriving DecidableEq

/-- How a fault is told. -/
def DecimalFault.message : DecimalFault → Text
  | secondSign whole => .join ["could not parse: ", whole]
  | payload rest fault => .join ["parse payload: ", rest, ": ", fault.message "ParseUint" rest]
  | exponent rest fault => .join ["parse exponent: ", rest, ": ", fault.message "ParseInt" rest]
  | mantissa rest => .join ["parse mantissa: ", rest]
  | exponentOutOfRange => "exponent out of range"

namespace Decimal

/-- The largest absolute value of an exponent. -/
def exponentLimit : Int := 100000

/-- Whether an exponent lies within the limits. -/
def exponentAllowed (exponent : Int) : Bool :=
  -exponentLimit ≤ exponent && exponent ≤ exponentLimit

/-- The number of digits of a coefficient; zero has one. -/
def digitCount (coefficient : Nat) : Nat := (Nat.toDigits 10 coefficient).length

/-- The exponent of the leading digit. -/
def adjustedExponent (d : Decimal) : Int := d.exponent + digitCount d.coefficient - 1

/-- The decimal with an exponent that is the sum of the given terms, if all stay within the limits.
-/
def withExponents (negative : Bool) (coefficient : Nat) (terms : List Int) :
    Except DecimalFault Decimal :=
  let d : Decimal := ⟨negative, coefficient, terms.foldl (· + ·) 0⟩
  if terms.all exponentAllowed && exponentAllowed d.adjustedExponent then .ok d
  else .error .exponentOutOfRange

/-- Drops `word` from the front of `cs`, if it stands there. -/
def dropWord? (word : String) (cs : List Char) : Option (List Char) :=
  if word.toList.isPrefixOf cs then some (cs.drop word.length) else none

/-- Reads the part of a number after its sign, in lower case. -/
def parseUnsigned (negative : Bool) (cs : List Char) : Except DecimalFault Decimal := do
  let (digits, terms) ←
    match cs.dropWhile (· != 'e') with
    | [] => pure (cs, [])
    | _ :: rest =>
      match readInteger 32 rest with
      | .ok e => pure (cs.takeWhile (· != 'e'), [e])
      | .error fault => throw (.exponent (.ofChars rest) fault)
  let (digits, terms) :=
    match digits.dropWhile (· != '.') with
    | [] => (digits, terms)
    | _ :: fraction =>
      (digits.takeWhile (· != '.') ++ fraction, terms ++ [-(fraction.length : Int)])
  if digits.isEmpty || digits.any (!isDigit ·) then throw (.mantissa (.ofChars digits))
  withExponents negative (digitsValue digits) terms

/-- What follows the marks of an undefined number, if there is any mark. -/
def undefined? (cs : List Char) : Option (List Char) :=
  match dropWord? "nan" cs with
  | some rest => some ((dropWord? "snan" rest).getD rest)
  | none => dropWord? "snan" cs

/-- Reads a decimal number such as `-12.50` or `1E+2`. -/
def parse (text : Text) : Except DecimalFault Decimal :=
  let (negative, unsigned) : Bool × List Char :=
    match text.chars with
    | '-' :: rest => (true, rest)
    | '+' :: rest => (false, rest)
    | cs => (false, cs)
  let lower := unsigned.map lowerChar
  match lower with
  | '-' :: _ => .error (.secondSign text)
  | '+' :: _ => .error (.secondSign text)
  | _ =>
    match undefined? lower with
    | some rest =>
      match readNatural 64 rest with
      | .ok _ => .error (.mantissa (.ofChars lower))
      | .error fault => .error (.payload (.ofChars rest) fault)
    | none => parseUnsigned negative lower

/-- Rounds to `precision` digits, a half away from zero.  A precision of zero keeps all digits. -/
def round (precision : Nat) (d : Decimal) : Except DecimalFault Decimal :=
  let surplus := digitCount d.coefficient - precision
  if precision = 0 ∨ surplus = 0 then .ok d
  else
    let unit := Nat.pow 10 surplus
    let kept := d.coefficient / unit
    let rounded := if unit ≤ 2 * (d.coefficient % unit) then kept + 1 else kept
    let result : Decimal :=
      if rounded = Nat.pow 10 precision then ⟨d.negative, rounded / 10, d.exponent + surplus + 1⟩
      else ⟨d.negative, rounded, d.exponent + surplus⟩
    if exponentAllowed result.adjustedExponent then .ok result else .error .exponentOutOfRange

/-- The signed coefficient of a decimal rewritten with the smaller exponent `exponent`. -/
def scaledTo (exponent : Int) (d : Decimal) : Int :=
  let n := d.coefficient * Nat.pow 10 (d.exponent - exponent).toNat
  if d.negative then -n else n

/-- Whether two decimals denote the same number. -/
def sameValue (a b : Decimal) : Bool :=
  let exponent := min a.exponent b.exponent
  a.scaledTo exponent == b.scaledTo exponent

/-- The sign of a decimal as written. -/
def sign (d : Decimal) : List Char := if d.negative then ['-'] else []

/-- The digits of a coefficient with the point before the last `places` of them. -/
def pointed (coefficient places : Nat) : List Char :=
  let digits := Nat.toDigits 10 coefficient
  let digits := List.replicate (places + 1 - digits.length) '0' ++ digits
  digits.take (digits.length - places) ++ '.' :: digits.drop (digits.length - places)

/-- All digits of a decimal, without an exponent. -/
def plain (d : Decimal) : Text :=
  .ofChars <| d.sign ++
    match d.exponent with
    | .ofNat zeros => Nat.toDigits 10 d.coefficient ++ List.replicate zeros '0'
    | .negSucc places => pointed d.coefficient (places + 1)

/-- A decimal with an exponent, or in full when it is neither large nor very small. -/
def scientific (d : Decimal) : Text :=
  let adjusted := d.adjustedExponent
  if d.exponent ≤ 0 && (-6 ≤ adjusted || (d.coefficient == 0 && -2000 ≤ d.exponent)) then d.plain
  else
    let digits := Nat.toDigits 10 d.coefficient
    let mantissa := if digits.length = 1 then digits else digits.take 1 ++ '.' :: digits.drop 1
    let exponent := (if adjusted < 0 then '-' else '+') :: Nat.toDigits 10 adjusted.natAbs
    .ofChars (d.sign ++ mantissa ++ 'E' :: exponent)

end Decimal

end SheetFormula
