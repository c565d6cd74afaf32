import SheetFormula.Reference.Basic
import SheetFormula.Text.Integer

/-!
# Columns and rows

A column or a row is a number within the bounds of the worksheet, marked as absolute when a `$`
stands before it.  `Column.parse` and `Row.parse` read the text form and `Column.text` and
`Row.text` write it.  The readers stop adding up digits once the bound is passed, so a long text
never makes a large number.
-/

namespace SheetFormula

/-- A column of the worksheet. -/
structure Column where
  number : Nat
  absolute : Bool
  one_le : 1 ≤ number
  le_max : number ≤ maxColumn
deriving DecidableEq, Hashable

/-- A row of the worksheet. -/
structure Row where
  number : Nat
  absolute : Bool
  one_le : 1 ≤ number
  le_max : number ≤ maxRow
deriving DecidableEq, Hashable

/-- The mark of an absolute column or row. -/
def absoluteMark (absolute : Bool) : List Char := if absolute then ['$'] else []

/-- Splits the absolute mark off a text. -/
def splitAbsolute : List Char → Bool × List Char
  | '$' :: rest => (true, rest)
  | cs => (false, cs)

namespace Column

/-- The column with the given number, if it is on the worksheet. -/
def ofNumber? (number : Nat) (absolute : Bool) : Option Column :=
  if h : 1 ≤ number ∧ number ≤ maxColumn then some ⟨number, absolute, h.1, h.2⟩ else none

/-- The column with the given number, or the error that names the number. -/
def ofInt (number : Int) (absolute : Bool) : Except ReferenceError Column :=
  match ofNumber? number.toNat absolute with
  | some column => .ok column
  | none => .error (.outOfBounds .column (.ofInt number))

/-- Adds one letter to a column number, unless it has passed the last column. -/
def addLetter (number : Nat) (letter : Char) : Nat :=
  if number ≤ maxColumn then number * 26 + letterValue letter else number

/-- Reads a column such as `B` or `$AB`. -/
def parse (text : Text) : Except ReferenceError Column :=
  let (absolute, letters) := splitAbsolute text.chars
  if letters.any (letterValue · = 0) then .error (.malformed .column text)
  else match ofNumber? (letters.foldl addLetter 0) absolute with
    | some column => .ok column
    | none => .error (.outOfBounds .column text)

/-- The text form of a column. -/
def text (column : Column) : Text :=
  .ofChars (absoluteMark column.absolute ++ columnLetters column.number)

end Column

namespace Row

/-- The row with the given number, if it is on the worksheet. -/
def ofNumber? (number : Nat) (absolute : Bool) : Option Row :=
  if h : 1 ≤ number ∧ number ≤ maxRow then some ⟨number, absolute, h.1, h.2⟩ else none

/-- The row with the given number, or the error that names the number. -/
def ofInt (number : Int) (absolute : Bool) : Except ReferenceError Row :=
  match ofNumber? number.toNat absolute with
  | some row => .ok row
  | none => .error (.outOfBounds .row (.ofInt number))

/-- Adds one digit to a row number, unless it has passed the last row. -/
def addDigit (number : Nat) (digit : Char) : Nat :=
  if number ≤ maxRow then number * 10 + digitValue digit else number

/-- Reads a row such as `12` or `$12`. -/
def parse (text : Text) : Except ReferenceError Row :=
  let (absolute, digits) := splitAbsolute text.chars
  if digits.any (!isDigit ·) then .error (.malformed .row text)
  else match ofNumber? (digits.foldl addDigit 0) absolute with
    | some row => .ok row
    | none => .error (.outOfBounds .row text)

/-- The text form of a row. -/
def text (row : Row) : Text :=
  .ofChars (absoluteMark row.absolute ++ Nat.toDigits 10 row.number)

end Row

end SheetFormula
