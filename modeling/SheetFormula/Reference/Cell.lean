import SheetFormula.Reference.Line

/-!
# Cells, ranges and other references

A cell is a column and a row, a range is two cells as they were written, and a formula can also
refer to a label or to a value of a template by name.  `Reference` is any of these.
-/

namespace SheetFormula

/-- The address of one cell. -/
structure Cell where
  column : Column
  row : Row
deriving DecidableEq, Hashable

namespace Cell

/-- Cuts the runes of a cell before its first digit, or before the `$` in front of that digit. -/
def cut (runes : List Rune) : List Rune × List Rune :=
  let before := runes.takeWhile fun r => !isDigit r.value
  let after := runes.dropWhile fun r => !isDigit r.value
  match after, before.getLast? with
  | _ :: _, some (.scalar '$') => (before.dropLast, .scalar '$' :: after)
  | _, _ => (before, after)

/-- Reads a cell such as `A1` or `$B$2`. -/
def parse (text : Text) : Except ReferenceError Cell :=
  match cut text.runes with
  | ([], _) => .error (.malformedCell text)
  | (_, []) => .error (.malformedCell text)
  | (column, row) => do
    let column ← Column.parse (.ofRunes column)
    let row ← Row.parse (.ofRunes row)
    return ⟨column, row⟩

/-- The text form of a cell. -/
def text (cell : Cell) : Text := cell.column.text ++ cell.row.text

/-- Whether `a` comes before `b` in reading order: by row, then by column, then by text form. -/
def precedes (a b : Cell) : Bool :=
  if a.row.number ≠ b.row.number then a.row.number < b.row.number
  else if a.column.number ≠ b.column.number then a.column.number < b.column.number
  else a.text.bytes ≤ b.text.bytes

end Cell

/-- A rectangle of cells between two corners, as they were written. -/
structure CellRange where
  first : Cell
  last : Cell
deriving DecidableEq, Hashable

namespace CellRange

/-- Reads a range such as `A1:B2`. -/
def parse (text : Text) : Except ReferenceError CellRange :=
  let isColon (r : Rune) : Bool := r.value == ':'
  let runes := text.runes
  match runes.dropWhile (!isColon ·) with
  | [] => .error (.malformedRange text)
  | _ :: last =>
    if last.any isColon then .error (.malformedRange text)
    else do
      let first ← Cell.parse (.ofRunes (runes.takeWhile (!isColon ·)))
      let last ← Cell.parse (.ofRunes last)
      return ⟨first, last⟩

/-- The text form of a range. -/
def text (range : CellRange) : Text := .join [range.first.text, ":", range.last.text]

/-- The corner with the smaller column and the smaller row. -/
def topLeft (range : CellRange) : Cell where
  column :=
    if range.last.column.number < range.first.column.number then range.last.column
    else range.first.column
  row := if range.last.row.number < range.first.row.number then range.last.row else range.first.row

/-- The corner with the larger column and the larger row. -/
def bottomRight (range : CellRange) : Cell where
  column :=
    if range.last.column.number < range.first.column.number then range.first.column
    else range.last.column
  row := if range.last.row.number < range.first.row.number then range.first.row else range.last.row

/-- Whether a cell lies in the rectangle. -/
def contains (range : CellRange) (cell : Cell) : Bool :=
  range.topLeft.column.number ≤ cell.column.number &&
    cell.column.number ≤ range.bottomRight.column.number &&
    range.topLeft.row.number ≤ cell.row.number && cell.row.number ≤ range.bottomRight.row.number

end CellRange

/-- What a formula can refer to. -/
inductive Reference
  | column (column : Column)
  | row (row : Row)
  | cell (cell : Cell)
  | range (range : CellRange)
  | label (name : Text)
  | template (name : Text)
deriving DecidableEq

namespace Reference

/-- The text form of a reference. -/
def text : Reference → Text
  | column c => c.text
  | row r => r.text
  | cell c => c.text
  | range r => r.text
  | label name => name
  | template name => name

/-- What a sort of reference is called. -/
def sort : Reference → String
  | column _ => "column"
  | row _ => "row"
  | cell _ => "cell"
  | range _ => "range"
  | label _ => "label"
  | template _ => "template"

end Reference

end SheetFormula
