import SheetFormula.Node.Defect

/-!
# The value of the leaves of a number

A number is written with sign, digit, separator, exponent and percent leaves.  `numberValue` reads
them from left to right: every digit of the fraction lowers the exponent by one, and every percent
sign by two.  A number without digits is zero.
-/

namespace SheetFormula

/-- What has been read of a number. -/
structure NumberReading where
  negative : Bool := false
  digits : Text := .empty
  digitsSeen : Bool := false
  inFraction : Bool := false
  /-- The number of bytes of the fraction's digits. -/
  fraction : Nat := 0
  inExponent : Bool := false
  exponentNegative : Bool := false
  exponent? : Option Int := none
  percents : Nat := 0

namespace NumberReading

/-- The longest run of exponent digits, in bytes. -/
def maxExponentDigits : Nat := 9

/-- Reads a sign. -/
def readSign (r : NumberReading) (minus : Bool) (text : Text) : Except NumberFault NumberReading :=
  if r.inExponent && r.exponent?.isNone then .ok { r with exponentNegative := minus }
  else if !r.digitsSeen && !r.inFraction && !r.inExponent then .ok { r with negative := minus }
  else .error (.misplacedSign text)

/-- Reads a run of digits. -/
def readDigits (r : NumberReading) (text : Text) : Except NumberFault NumberReading :=
  if r.inExponent then
    if r.exponent?.isSome || maxExponentDigits < text.size then .error (.invalidExponent text)
    else match readInteger 64 text.chars with
      | .ok e => .ok { r with exponent? := some e, digitsSeen := true }
      | .error fault => .error (.unreadableExponent text fault)
  else if r.inFraction then
    .ok { r with
      digits := r.digits ++ text
      fraction := r.fraction + text.size
      digitsSeen := true }
  else
    .ok { r with digits := r.digits ++ text, digitsSeen := true }

/-- Reads one child of a number. -/
def read (r : NumberReading) (child : Node) : Except NumberFault NumberReading :=
  match child with
  | .leaf (.symbol .plus) text => r.readSign false text
  | .leaf (.symbol .minus) text => r.readSign true text
  | .leaf .digits text => r.readDigits text
  | .leaf (.symbol .decimalSeparator) text =>
    if r.inFraction || r.inExponent then .error (.misplacedSeparator text)
    else .ok { r with inFraction := true }
  | .leaf (.symbol .exponent) text =>
    if r.inExponent then .error (.misplacedExponent text) else .ok { r with inExponent := true }
  | .leaf (.symbol .percent) _ => .ok { r with percents := r.percents + 1 }
  | _ => .error (.unexpected child.kind)

/-- The exponent of the digits read, were they written without a separator. -/
def totalExponent (r : NumberReading) : Int :=
  let exponent := r.exponent?.getD 0
  (if r.exponentNegative then -exponent else exponent) - r.fraction - 2 * r.percents

/-- The number that was read. -/
def value (r : NumberReading) : Except NumberFault Decimal :=
  if r.inExponent && r.exponent?.isNone then .error .missingExponentDigits
  else
    let digits : Text := if r.digits.isEmpty then "0" else r.digits
    match Decimal.parse (.join [digits, "E", .ofInt r.totalExponent]) with
    | .ok d => .ok { d with negative := r.negative && d.coefficient != 0 }
    | .error fault => .error (.decimal fault)

end NumberReading

/-- The exact value of the leaves of a number. -/
def numberValue (children : List Node) : Except NumberFault Decimal := do
  let reading ← children.foldlM NumberReading.read {}
  reading.value

end SheetFormula
