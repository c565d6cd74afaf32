import SheetFormula.Node.Basic

/-!
# Building leaves of a family

Symbols and whitespace are built alike, and so are all components of dates and times: the kind alone
decides which leaf comes out.  A kind of another family is a `Misuse`, which no formula can bring
about.
-/

namespace SheetFormula

/-- A kind that was asked for where it does not belong. -/
inductive Misuse
  | notSymbol (kind : Kind)
  | notComponent (kind : Kind)
deriving DecidableEq

/-- How a misuse is told. -/
def Misuse.message : Misuse → Text
  | notSymbol kind => .join ["formula: ", kind.name, " is not a symbol"]
  | notComponent kind => .join ["formula: ", kind.name, " is not a date or time component"]

namespace Node

/-- A leaf that is noise: a symbol or whitespace. -/
def noise (kind : Kind) (text : Text) : Except Misuse Node :=
  match kind with
  | .symbol s => .ok (leaf (.symbol s) text)
  | .whitespace => .ok (leaf .whitespace text)
  | _ => .error (.notSymbol kind)

/-- A component of a date or a time. -/
def component (kind : Kind) (value : Int) (text : Text) : Except Misuse Node :=
  match kind with
  | .component c => .ok (leaf (.component c value) text)
  | _ => .error (.notComponent kind)

end Node

end SheetFormula
