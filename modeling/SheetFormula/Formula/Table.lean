import Std.Data.HashMap
import Std.Data.HashSet
import SheetFormula.Formula.Basic

/-!
# Tables of formulas

Cells that hold the same formula up to whitespace share one entry of a table.  The entry is found by
its *key*, the texts of all leaves of the token but whitespace, and numbered; it lasts as long as a
cell holds it.  The table also knows which cells hold an entry and which labels an entry refers to.
-/

namespace SheetFormula

/-- Notes the text of a leaf that is no whitespace. -/
def noteKeyPart (parts : List Text) : Node → Bool × List Text
  | .leaf content text => (true, if content = .whitespace then parts else text :: parts)
  | .parent _ _ => (true, parts)

/-- What formulas are told apart by: the text of the token without whitespace, or the text of a
formula without a token. -/
def Formula.key (f : Formula) : Text :=
  match f.token? with
  | some token => .join (token.inspect noteKeyPart []).reverse
  | none => f.text

/-- The labels that a formula's token refers to, in order. -/
def Formula.labels (f : Formula) : List Text :=
  match f.token? with
  | some token =>
    token.references.filterMap fun
      | .label name => some name
      | _ => none
  | none => []

/-- The number of an entry.  No entry has the number 0. -/
abbrev FormulaId := UInt32

/-- Formulas, the cells that hold them and the labels they use. -/
structure Table where
  ids : Std.HashMap Text FormulaId := {}
  formulas : Std.HashMap FormulaId Formula := {}
  holders : Std.HashMap FormulaId Int := {}
  cells : Std.HashMap FormulaId (Std.HashSet Cell) := {}
  idAt : Std.HashMap Cell FormulaId := {}
  labels : Std.HashMap FormulaId (Std.HashSet Text) := {}
  users : Std.HashMap Text (Std.HashSet FormulaId) := {}
  nextId : FormulaId := 1

namespace Table

/-- A table without formulas. -/
def empty : Table := {}

/-- Notes that a cell holds an entry. -/
def addCell (t : Table) (id : FormulaId) (cell : Cell) : Table :=
  { t with
    cells := t.cells.insert id ((t.cells.getD id ∅).insert cell)
    idAt := t.idAt.insert cell id }

/-- Notes that an entry uses a label. -/
def addLabel (id : FormulaId) (t : Table) (label : Text) : Table :=
  { t with
    labels := t.labels.insert id ((t.labels.getD id ∅).insert label)
    users := t.users.insert label ((t.users.getD label ∅).insert id) }

/-- Notes that an entry no longer uses a label. -/
def dropLabel (id : FormulaId) (users : Std.HashMap Text (Std.HashSet FormulaId)) (label : Text) :
    Std.HashMap Text (Std.HashSet FormulaId) :=
  match users[label]? with
  | some ids =>
    let ids := ids.erase id
    if ids.isEmpty then users.erase label else users.insert label ids
  | none => users

/-- Forgets an entry and all that is known about it. -/
def remove (t : Table) (id : FormulaId) : Table :=
  { t with
    ids :=
      match t.formulas[id]? with
      | some f => t.ids.erase f.key
      | none => t.ids
    formulas := t.formulas.erase id
    holders := t.holders.erase id
    cells := t.cells.erase id
    users := (t.labels.getD id ∅).toList.foldl (dropLabel id) t.users
    labels := t.labels.erase id }

/-- Notes that a cell no longer holds an entry. -/
def dropCell (t : Table) (id : FormulaId) (cell : Cell) : Table :=
  { t with
    idAt := t.idAt.erase cell
    cells :=
      match t.cells[id]? with
      | some cells =>
        let cells := cells.erase cell
        if cells.isEmpty then t.cells.erase id else t.cells.insert id cells
      | none => t.cells
    holders := t.holders.insert id (t.holders.getD id 0 - 1) }

/-- Empties a cell.  The answer tells whether the entry it held is gone with it. -/
def release (t : Table) (cell : Cell) : Bool × Table :=
  match t.idAt[cell]? with
  | none => (false, t)
  | some id =>
    let t := t.dropCell id cell
    if 0 < t.holders.getD id 0 then (false, t) else (true, t.remove id)

/-- Puts a formula into a cell.  An entry with the same key is shared, and whatever the cell held
before is released. -/
def intern (t : Table) (f : Formula) (cell : Cell) : FormulaId × Table :=
  let key := f.key
  match t.ids[key]? with
  | some id =>
    if t.idAt.getD cell 0 = id then (id, t)
    else
      let t := (t.release cell).2
      let t := { t with holders := t.holders.insert id (t.holders.getD id 0 + 1) }
      (id, t.addCell id cell)
  | none =>
    let t := (t.release cell).2
    let id := t.nextId
    let t := { t with
      nextId := t.nextId + 1
      ids := t.ids.insert key id
      formulas := t.formulas.insert id f
      holders := t.holders.insert id 1 }
    (id, f.labels.foldl (addLabel id) (t.addCell id cell))

/-- The formula of an entry. -/
def get? (t : Table) (id : FormulaId) : Option Formula := t.formulas[id]?

/-- The entry with the same key as a formula. -/
def lookup? (t : Table) (f : Formula) : Option FormulaId := t.ids[f.key]?

/-- The entry that a cell holds. -/
def at? (t : Table) (cell : Cell) : Option FormulaId := t.idAt[cell]?

/-- The cells that hold an entry, in reading order. -/
def cellsOf (t : Table) (id : FormulaId) : List Cell :=
  (t.cells.getD id ∅).toList.mergeSort Cell.precedes

/-- The entries that use a label, in increasing order. -/
def idsUsing (t : Table) (label : Text) : List FormulaId :=
  (t.users.getD label ∅).toList.mergeSort (· ≤ ·)

/-- The number of entries. -/
def size (t : Table) : Nat := t.formulas.size

end Table

end SheetFormula
