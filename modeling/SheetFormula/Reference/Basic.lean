import SheetFormula.Text.Quoted

/-!
# Worksheet bounds and the errors of references

A worksheet has columns `A` to `XFD` and rows `1` to `1048576`.  `columnLetters` writes a column
number in bijective base 26, in which there is no digit zero, and `letterValue` gives the value of a
digit.  `ReferenceError` lists why a text is no reference.
-/

namespace SheetFormula

/-- The number of the last column, `XFD`. -/
def maxColumn : Nat := 16384

/-- The number of the last row. -/
def maxRow : Nat := 1048576

/-- The value of a column letter of either case, from 1 to 26, and 0 for any other character. -/
def letterValue (c : Char) : Nat :=
  if 'A' ≤ c ∧ c ≤ 'Z' then c.toNat - 'A'.toNat + 1
  else if 'a' ≤ c ∧ c ≤ 'z' then c.toNat - 'a'.toNat + 1
  else 0

/-- The capital letter number `n` of the alphabet, counted from 0. -/
def capitalLetter (n : Nat) : Char := Char.ofNat ('A'.toNat + n)

/-- Writes the letters of a column number in front of `tail`, in at most `fuel` letters. -/
def columnLettersOnto : (fuel number : Nat) → (tail : List Char) → List Char
  | 0, _, tail => tail
  | fuel + 1, number, tail =>
    if number = 0 then tail
    else columnLettersOnto fuel ((number - 1) / 26) (capitalLetter ((number - 1) % 26) :: tail)

/-- The letters of a column number: `A` is 1, `Z` is 26 and `AA` is 27. -/
def columnLetters (number : Nat) : List Char := columnLettersOnto number number []

/-- The two directions of a worksheet. -/
inductive Axis
  | column
  | row
deriving DecidableEq

namespace Axis

/-- What an axis is called. -/
def name : Axis → String
  | column => "column"
  | row => "row"

/-- The first line along an axis. -/
def lower : Axis → Text
  | column => .ofChars (columnLetters 1)
  | row => .ofNat 1

/-- The last line along an axis. -/
def upper : Axis → Text
  | column => .ofChars (columnLetters maxColumn)
  | row => .ofNat maxRow

end Axis

/-- Why a text is no reference. -/
inductive ReferenceError
  /-- The column or row lies outside of the worksheet. -/
  | outOfBounds (axis : Axis) (text : Text)
  /-- The column or row holds a character that does not belong there. -/
  | malformed (axis : Axis) (text : Text)
  /-- The text is not a column followed by a row. -/
  | malformedCell (text : Text)
  /-- The text is not two cells with one colon between them. -/
  | malformedRange (text : Text)
deriving DecidableEq

/-- How an error is told. -/
def ReferenceError.message : ReferenceError → Text
  | outOfBounds axis text =>
    .join ["Invalid " ++ axis.name ++ " ", text.quoted, " not between ", axis.lower.quoted, " and ",
      axis.upper.quoted]
  | malformed axis text => .join ["invalid " ++ axis.name ++ " ", text.quoted]
  | malformedCell text => .join ["invalid cell reference ", text.quoted]
  | malformedRange text => .join ["invalid range format ", text.quoted]

end SheetFormula
