import SheetFormula.Text.Quoted

/-!
# Reading decimal integers

An integer is an optional sign and one or more decimal digits, within the range of a signed word of
a given width.  `readInteger` reads a whole text; a text that holds anything else, or too large a
number, is refused with the fault that a reader from left to right meets first.
-/

namespace SheetFormula

/-- Whether a character is a decimal digit. -/
def isDigit (c : Char) : Bool := '0' ≤ c && c ≤ '9'

/-- The value of a decimal digit. -/
def digitValue (c : Char) : Nat := c.toNat - '0'.toNat

/-- The number that a list of decimal digits spells. -/
def digitsValue (cs : List Char) : Nat := cs.foldl (fun n c => n * 10 + digitValue c) 0

/-- Why a text is not read as an integer. -/
inductive IntegerFault
  | malformed
  | outOfRange
deriving DecidableEq

/-- How a reader that refuses a text says so. -/
def IntegerFault.wording : IntegerFault → String
  | malformed => "invalid syntax"
  | outOfRange => "value out of range"

/-- The message of the reader called `reader` about `source`. -/
def IntegerFault.message (fault : IntegerFault) (reader : String) (source : Text) : Text :=
  .join ["strconv." ++ reader ++ ": parsing ", source.quoted, ": " ++ fault.wording]

/-- Reads digits after those that spell `number`, up to `limit`. -/
def readDigits (limit number : Nat) : List Char → Except IntegerFault Nat
  | [] => .ok number
  | c :: rest =>
    if isDigit c then
      let next := number * 10 + digitValue c
      if next ≤ limit then readDigits limit next rest else .error .outOfRange
    else
      .error .malformed

/-- Reads an unsigned word of the given width. -/
def readNatural (width : Nat) (cs : List Char) : Except IntegerFault Nat :=
  if cs.isEmpty then .error .malformed else readDigits (Nat.pow 2 width - 1) 0 cs

/-- Reads a signed word of the given width. -/
def readInteger (width : Nat) (cs : List Char) : Except IntegerFault Int :=
  match cs with
  | '-' :: digits => do
    let n ← readNatural width digits
    if n ≤ Nat.pow 2 (width - 1) then return -(n : Int) else throw .outOfRange
  | '+' :: digits => positive digits
  | _ => positive cs
where
  /-- Reads a number without a sign. -/
  positive (digits : List Char) : Except IntegerFault Int := do
    let n ← readNatural width digits
    if n < Nat.pow 2 (width - 1) then return (n : Int) else throw .outOfRange

/-! ### Integers with a marked base -/

/-- The value of a digit in bases up to 36. -/
def anyDigitValue? (c : Char) : Option Nat :=
  if isDigit c then some (digitValue c)
  else if 'a' ≤ c ∧ c ≤ 'z' then some (c.toNat - 'a'.toNat + 10)
  else if 'A' ≤ c ∧ c ≤ 'Z' then some (c.toNat - 'A'.toNat + 10)
  else none

/-- The base that the front of a number marks, and the digits behind the mark. -/
def markedBase (cs : List Char) : Nat × List Char :=
  match cs with
  | '0' :: m :: d :: rest =>
    if m = 'x' ∨ m = 'X' then (16, d :: rest)
    else if m = 'o' ∨ m = 'O' then (8, d :: rest)
    else if m = 'b' ∨ m = 'B' then (2, d :: rest)
    else (8, m :: d :: rest)
  | '0' :: rest => (8, rest)
  | cs => (10, cs)

/-- Reads digits of a base after those that spell `number`, passing over underscores. -/
def readDigitsIn (base limit number : Nat) : List Char → Except IntegerFault Nat
  | [] => .ok number
  | c :: rest =>
    if c = '_' then readDigitsIn base limit number rest
    else
      match anyDigitValue? c with
      | none => .error .malformed
      | some d =>
        if d < base then
          let next := number * base + d
          if next ≤ limit then readDigitsIn base limit next rest else .error .outOfRange
        else .error .malformed

/-- Whether every underscore has a digit on both sides; the mark of a base counts as a digit. -/
def underscoresSeparate : (afterDigit : Bool) → List Char → Bool
  | _, [] => true
  | afterDigit, '_' :: rest =>
    match rest with
    | [] => false
    | c :: _ => afterDigit && c != '_' && underscoresSeparate false rest
  | _, _ :: rest => underscoresSeparate true rest

/-- Reads an unsigned word whose base may be marked as in `0x1F`. -/
def readMarkedNatural (width : Nat) (cs : List Char) : Except IntegerFault Nat := do
  if cs.isEmpty then throw .malformed
  let (base, digits) := markedBase cs
  let n ← readDigitsIn base (Nat.pow 2 width - 1) 0 digits
  if underscoresSeparate (base != 10) digits then return n else throw .malformed

/-- Reads a signed word whose base may be marked as in `-0x1F`. -/
def readMarkedInteger (width : Nat) (cs : List Char) : Except IntegerFault Int :=
  match cs with
  | '-' :: digits => do
    let n ← readMarkedNatural width digits
    if n ≤ Nat.pow 2 (width - 1) then return -(n : Int) else throw .outOfRange
  | '+' :: digits => positive digits
  | _ => positive cs
where
  /-- Reads a number without a sign. -/
  positive (digits : List Char) : Except IntegerFault Int := do
    let n ← readMarkedNatural width digits
    if n < Nat.pow 2 (width - 1) then return (n : Int) else throw .outOfRange

end SheetFormula
