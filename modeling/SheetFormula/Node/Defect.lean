import SheetFormula.Node.Basic

/-!
# Defects of nodes

The constructors of parents refuse children that do not make sense together.  `Defect` lists the
reasons, from those that concern any parent to the faults of numbers, dates and times, and
`Defect.message` tells them.
-/

namespace SheetFormula

/-- The names of the kinds of nodes, in brackets. -/
def kindList (kinds : List Kind) : Text :=
  .join ["[", .intercalate ", " (kinds.map fun k => k.name), "]"]

/-- Why the leaves of a number make no number. -/
inductive NumberFault
  | misplacedSign (text : Text)
  | misplacedSeparator (text : Text)
  | misplacedExponent (text : Text)
  | invalidExponent (digits : Text)
  | unreadableExponent (digits : Text) (fault : IntegerFault)
  | missingExponentDigits
  | unexpected (kind : Kind)
  | decimal (fault : DecimalFault)
deriving DecidableEq

/-- How a fault of a number is told. -/
def NumberFault.message : NumberFault → Text
  | misplacedSign text => .join ["misplaced sign ", text.quoted]
  | misplacedSeparator text => .join ["misplaced decimal separator ", text.quoted]
  | misplacedExponent text => .join ["misplaced exponent ", text.quoted]
  | invalidExponent digits => .join ["invalid exponent ", digits.quoted]
  | unreadableExponent digits fault => fault.message "Atoi" digits
  | missingExponentDigits => "missing exponent digits"
  | unexpected kind => .join ["unexpected ", kind.name]
  | decimal fault => fault.message

/-- Why the leaves of a date or a time make none. -/
inductive ComponentFault
  | unexpected (kind : Kind)
  | duplicate (component : Component)
  | outOfRange (what : String) (value : Int)
  | dayOfMonth (day month : Int)
  | missingHour
  | hourWithMeridiem (hour : Int)
deriving DecidableEq

/-- How a fault of a date or a time is told. -/
def ComponentFault.message : ComponentFault → Text
  | unexpected kind => .join ["unexpected ", kind.name]
  | duplicate component => .join ["duplicate ", component.name]
  | outOfRange what value => .join ["invalid " ++ what ++ " ", .ofInt value]
  | dayOfMonth day month =>
    .join ["invalid day ", .ofInt day, " for ", (monthNames[(month - 1).toNat]?).getD ""]
  | missingHour => "missing hour"
  | hourWithMeridiem hour => .join ["invalid hour ", .ofInt hour, " with am/pm"]

/-- Why nodes do not make a parent. -/
inductive Defect
  | notBinary (kind : Kind)
  | notUnary (kind : Kind)
  | notConditionRight (kind : Kind)
  | notParent (kind : Kind)
  | notOperator (kind : Kind)
  | noChildren (kind : Kind)
  | absentChild (kind : Kind) (index : Nat)
  | operandCount (kind : Kind) (expected actual : Nat)
  | unexpectedSymbol (kind child : Kind) (text : Text)
  | missing (kind child : Kind)
  | unexpected (kind child : Kind)
  | duplicate (kind child : Kind)
  | cellParts (actual : List Kind)
  | rangeCount (actual : Nat)
  | rangeParts (actual : List Kind)
  | halvesMissing
  | parentheses (actual : List Kind)
  | functionParts (actual : List Kind)
  | lambdaParts (actual : List Kind)
  | number (fault : NumberFault)
  | date (fault : ComponentFault)
  | time (fault : ComponentFault)
  | missingOperand (operator : Kind) (nodes : List Kind)
  | notReduced (nodes : List Kind)
deriving DecidableEq

/-- How a defect is told. -/
def Defect.message : Defect → Text
  | notBinary kind => .join [kind.name, " is not a binary operator"]
  | notUnary kind => .join [kind.name, " is not a unary kind"]
  | notConditionRight kind => .join [kind.name, " is not a condition right kind"]
  | notParent kind => .join [kind.name, " is not a parent kind"]
  | notOperator kind => .join [kind.name, " is not an operator"]
  | noChildren kind => .join [kind.name, ": no children"]
  | absentChild kind index => .join [kind.name, ": child ", .ofNat index, " is nil"]
  | operandCount kind expected actual =>
    .join [kind.name, ": expected ", .ofNat expected,
      if expected = 1 then " operand but got " else " operands but got ", .ofNat actual]
  | unexpectedSymbol kind child text =>
    .join [kind.name, ": unexpected " ++ child.name ++ " ", text.quoted]
  | missing kind child => .join [kind.name, ": missing " ++ child.name]
  | unexpected kind child => .join [kind.name, ": unexpected " ++ child.name]
  | duplicate kind child => .join [kind.name, ": duplicate " ++ child.name]
  | cellParts actual => .join ["cell: expected column and row but got ", kindList actual]
  | rangeCount actual => .join ["cell-range: expected 2 cells but got ", .ofNat actual]
  | rangeParts actual => .join ["cell-range: expected 2 cells but got ", kindList actual]
  | halvesMissing => "date-time: missing date and time"
  | parentheses actual =>
    .join ["function-parameters: expected parentheses but got ", kindList actual]
  | functionParts actual =>
    .join ["named-function: expected function name and parameters but got ", kindList actual]
  | lambdaParts actual =>
    .join ["lambda-function: expected function name and 2 parameters but got ", kindList actual]
  | number fault => .join ["number: ", fault.message]
  | date fault => .join ["date: ", fault.message]
  | time fault => .join ["time: ", fault.message]
  | missingOperand operator nodes =>
    .join [operator.name, ": missing operand in ", kindList nodes]
  | notReduced nodes => .join ["expected 1 node after reducing but got ", kindList nodes]

/-- The code of a defect. -/
def Defect.code (_ : Defect) : ApplicationCode := .invalidArgument

end SheetFormula
