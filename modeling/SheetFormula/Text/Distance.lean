import SheetFormula.Text.Basic

/-!
# Edit distance

The least number of insertions, deletions and replacements that turn one list into another.  The
distances of all beginnings of the second list form a row, and every element of the first list turns
one row into the next.
-/

namespace SheetFormula

variable {α : Type} [BEq α]

/-- The rest of the row after `a`, from the rest of the row before it: `diagonal` and `left` are the
entries before the first of either. -/
def distanceRow (a : α) (diagonal left : Nat) : List α → List Nat → List Nat
  | b :: bs, up :: ups =>
    let here := if a == b then diagonal else min diagonal (min up left) + 1
    here :: distanceRow a up here bs ups
  | _, _ => []

/-- The row after `a`, from the row before it. -/
def nextDistances (bs : List α) (row : List Nat) (a : α) : List Nat :=
  match row with
  | [] => []
  | first :: ups => (first + 1) :: distanceRow a first (first + 1) bs ups

/-- The edit distance of two lists. -/
def editDistance (as bs : List α) : Nat :=
  (as.foldl (nextDistances bs) (List.range (bs.length + 1))).getLastD 0

end SheetFormula
